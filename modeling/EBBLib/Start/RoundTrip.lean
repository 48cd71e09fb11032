import EBBLib.Start.Encoder

/-!
# What survives the encoding of the start information

The decoder finds every argument and every environment string where the encoder has
put it, and both assertions hold. But it takes the count of environment strings for
one more than it is: `environc` is one short, and the terminating null is written
behind the end of the array, for every environment.
-/

namespace EBBLib.StartInfo

/-- Each argument that starts with `-ebbos_cores` is followed by another one. -/
def CoresHaveValues (argv : List CStr) : Prop :=
  ∀ a ∈ argv.getLast?, startsWith ebbosCores a = false

/-- The string that starts at `p`. -/
def stringAt (si : List UInt8) (p : Nat) : List UInt8 := (si.drop p).takeWhile (· ≠ 0)

/-- The first elements of a pointer array point to the strings `xs`. -/
def PtrArray.Holds (a : PtrArray) (si : List UInt8) (xs : List CStr) : Prop :=
  ∀ (i : Nat) (h : i < xs.length), ∃ p, a.elem i = some (.offset p) ∧ stringAt si p = xs[i].bytes

/-- What a process expects of its start information. -/
structure Faithful (argv env : List CStr) (si : List UInt8) (r : L1Prim) : Prop where
  argc : r.argc = (strip argv).length
  argv : r.argv.Holds si (strip argv)
  environ : r.environ.Holds si env
  terminated : r.environ.elem env.length = some .null
  environc : r.environc = env.length
  bounds : r.argv.InBounds ∧ r.environ.InBounds

/-- Both sides succeed, assertions included, and the result is as expected. -/
def Survives (argv env : List CStr) : Prop :=
  ∃ info r, startinfo argv env = some info ∧ startMH info = some r ∧
    Faithful argv env info.1 r

/-! ### The encoder -/

theorem CoresHaveValues.tail {a : CStr} {rest : List CStr} (values : CoresHaveValues (a :: rest)) :
    CoresHaveValues rest := by
  intro x last
  have same : rest.getLast? = some x := last
  exact values x (by simp [List.getLast?_cons, same])

theorem CoresHaveValues.present {argv : List CStr} (values : CoresHaveValues argv) :
    valuesPresent argv := by
  induction argv using strip.induct with
  | case1 => rfl
  | case2 a cores => simp [CoresHaveValues, cores] at values
  | case3 a cores v rest ih =>
      rw [valuesPresent, if_pos cores]
      exact ih values.tail.tail
  | case4 a rest other ebbos ih =>
      rw [valuesPresent_of_not other]
      exact ih values.tail
  | case5 a rest other plain ih =>
      rw [valuesPresent_of_not other]
      exact ih values.tail

/-- The encoder succeeds on every input whose size an `int` can hold. -/
theorem startinfo_encoded {argv env : List CStr} (values : CoresHaveValues argv)
    (fits : intSize + (pack argv).length + (pack env).length < 2 ^ 31) :
    startinfo argv env = some (encoded argv env, ((encoded argv env).length : Int)) := by
  have many := length_le_pack argv
  have shorter := pack_strip_length_le argv
  have room : (written argv env : Int) ≤ wrapInt (total argv env) := by
    rw [wrapInt_of_fits (by omega) (by simp only [total]; omega)]
    simp only [written, total]
    omega
  have isSome := (startinfo_isSome_iff argv env (by omega)).mpr ⟨values.present, room⟩
  obtain ⟨info, sent⟩ := Option.isSome_iff_exists.mp isSome
  rw [sent, (startinfo_some sent).1]

/-! ### The decoder -/

theorem readInt_intBytes {v : Int} (lo : -2 ^ 31 ≤ v) (hi : v < 2 ^ 31) (rest : List UInt8) :
    readInt (intBytes v ++ rest) = some v := by
  simp only [intBytes, List.cons_append, readInt, UInt8.toNat_ofNat', wrapInt, Option.some.injEq]
  omega

theorem stringAt_append (pre bytes post : List UInt8) (nulFree : 0 ∉ bytes) :
    stringAt (pre ++ (bytes ++ 0 :: post)) pre.length = bytes := by
  have plain : ∀ c ∈ bytes, decide (c ≠ 0) = true := by
    intro c mem
    simpa using fun zero : c = 0 => nulFree (zero ▸ mem)
  have stop : (bytes ++ 0 :: post).takeWhile (· ≠ 0) = bytes ++ (0 :: post).takeWhile (· ≠ 0) :=
    List.takeWhile_append_of_pos plain
  rw [stringAt, List.drop_left, stop]
  simp

/-- The scan stops at the NUL of the string it starts in. -/
theorem strEnd_append (fuel : Nat) (pre bytes post : List UInt8) (nulFree : 0 ∉ bytes)
    (enough : bytes.length < fuel) :
    strEnd (pre ++ (bytes ++ 0 :: post)) fuel pre.length = some (pre.length + bytes.length) := by
  induction bytes generalizing pre fuel with
  | nil =>
      obtain ⟨fuel, rfl⟩ := Nat.exists_eq_add_one.mpr enough
      simp [strEnd]
  | cons c bytes ih =>
      obtain ⟨fuel, rfl⟩ := Nat.exists_eq_add_one.mpr (Nat.zero_lt_of_lt enough)
      have next := ih fuel (pre ++ [c]) (fun mem => nulFree (List.mem_cons_of_mem _ mem))
        (by simpa using enough)
      have other : c ≠ 0 := fun zero => nulFree (zero ▸ List.mem_cons_self)
      simp only [List.append_assoc, List.singleton_append, List.length_append,
        List.length_singleton] at next
      simp [strEnd, other, next]
      omega

/-- The array after the addresses of `xs`, packed from `p` on, were stored from `i` on. -/
def PtrArray.store (a : PtrArray) (i : Int) (p : Nat) : List CStr → PtrArray
  | [] => a
  | x :: xs => (a.set i (.offset p)).store (i + 1) (p + x.bytes.length + 1) xs

theorem fillPtrs_append (pre : List UInt8) (xs : List CStr) (post : List UInt8) (i : Int)
    (a : PtrArray) :
    fillPtrs (pre ++ (pack xs ++ post)) xs.length i pre.length a =
      some (pre.length + (pack xs).length, a.store i pre.length xs) := by
  induction xs generalizing pre i a with
  | nil => simp [fillPtrs, PtrArray.store]
  | cons x xs ih =>
      have split : pre ++ (pack (x :: xs) ++ post) = pre ++
          (x.bytes ++ 0 :: (pack xs ++ post)) := by
        simp
      have shift : pre ++ (pack (x :: xs) ++ post) =
          pre ++ (x.bytes ++ [0]) ++ (pack xs ++ post) := by
        simp
      have stop : strEnd (pre ++ (pack (x :: xs) ++ post))
          ((pre ++ (pack (x :: xs) ++ post)).length + 1) pre.length =
          some (pre.length + x.bytes.length) := by
        rw [split]
        exact strEnd_append _ pre x.bytes _ x.nulFree (by simp; omega)
      have next := ih (pre ++ (x.bytes ++ [0])) (i + 1) (a.set i (.offset pre.length))
      rw [← shift] at next
      have behind : (pre ++ (x.bytes ++ [0])).length = pre.length + x.bytes.length + 1 := by
        simp [Nat.add_assoc]
      rw [behind] at next
      simp only [List.length_cons, fillPtrs, stop, Option.bind_some, next, PtrArray.store]
      simp
      omega

/-- The scan over the environment counts its strings. -/
theorem countStrs_append (fuel : Nat) (pre : List UInt8) (xs : List CStr) (n : Int)
    (enough : xs.length < fuel) :
    countStrs (pre ++ pack xs) (pre ++ pack xs).length fuel pre.length n =
      some ((pre ++ pack xs).length, n + xs.length) := by
  induction xs generalizing pre n fuel with
  | nil =>
      obtain ⟨fuel, rfl⟩ := Nat.exists_eq_add_one.mpr (Nat.zero_lt_of_lt enough)
      simp [countStrs]
  | cons x xs ih =>
      obtain ⟨fuel, rfl⟩ := Nat.exists_eq_add_one.mpr (Nat.zero_lt_of_lt enough)
      have split : pre ++ pack (x :: xs) = pre ++ (x.bytes ++ 0 :: pack xs) := by simp
      have shift : pre ++ pack (x :: xs) = pre ++ (x.bytes ++ [0]) ++ pack xs := by simp
      have stop : strEnd (pre ++ pack (x :: xs)) ((pre ++ pack (x :: xs)).length + 1) pre.length =
          some (pre.length + x.bytes.length) := by
        rw [split]
        exact strEnd_append _ pre x.bytes _ x.nulFree (by simp; omega)
      have next := ih fuel (pre ++ (x.bytes ++ [0])) (n + 1) (by simpa using enough)
      rw [← shift] at next
      have behind : (pre ++ (x.bytes ++ [0])).length = pre.length + x.bytes.length + 1 := by
        simp [Nat.add_assoc]
      have more : (pre.length : Int) < (pre ++ pack (x :: xs)).length := by simp; omega
      rw [behind] at next
      simp only [countStrs, more, if_true, stop, Option.bind_some, next, List.length_cons]
      simp
      omega

namespace PtrArray

@[simp] theorem store_cap (a : PtrArray) (i : Int) (p : Nat) (xs : List CStr) :
    (a.store i p xs).cap = a.cap := by
  induction xs generalizing a i p with
  | nil => rfl
  | cons x xs ih => exact ih ..

theorem store_elem_lt {a : PtrArray} {i j : Int} {p : Nat} {xs : List CStr} (before : j < i) :
    (a.store i p xs).elem j = a.elem j := by
  induction xs generalizing a i p with
  | nil => rfl
  | cons x xs ih =>
      rw [store, ih (by omega)]
      simp [set, Int.ne_of_lt before]

theorem mem_store_written {a : PtrArray} {i j : Int} {p : Nat} {xs : List CStr} :
    j ∈ (a.store i p xs).written ↔ j ∈ a.written ∨ i ≤ j ∧ j < i + xs.length := by
  induction xs generalizing a i p with
  | nil =>
      have empty : ¬ (i ≤ j ∧ j < i + ([] : List CStr).length) := by simp
      simp only [store, empty, or_false]
  | cons x xs ih =>
      rw [store, ih]
      simp only [set, List.mem_cons, List.length_cons]
      by_cases old : j ∈ a.written
      · simp [old]
      · simp only [old, or_false, false_or]
        omega

theorem store_holds (pre : List UInt8) (xs : List CStr) (post : List UInt8) (i : Int)
    (a : PtrArray) (k : Nat) (h : k < xs.length) :
    ∃ p, (a.store i pre.length xs).elem (i + k) = some (.offset p) ∧
      stringAt (pre ++ (pack xs ++ post)) p = xs[k].bytes := by
  induction xs generalizing pre i a k with
  | nil => simp at h
  | cons x xs ih =>
      cases k with
      | zero =>
          refine ⟨pre.length, ?_, ?_⟩
          · rw [store, store_elem_lt (show i + (0 : Nat) < i + 1 by omega)]
            simp [set]
          · simpa using stringAt_append pre x.bytes (pack xs ++ post) x.nulFree
      | succ k =>
          obtain ⟨p, found, string⟩ := ih (pre ++ (x.bytes ++ [0])) (i + 1)
            (a.set i (.offset pre.length)) k (by simpa using h)
          refine ⟨p, ?_, by simpa using string⟩
          have behind : (pre ++ (x.bytes ++ [0])).length = pre.length + x.bytes.length + 1 := by
            simp [Nat.add_assoc]
          rw [behind] at found
          rw [store, ← found]
          congr 1
          omega

end PtrArray

/-- What the decoder makes of the encoder's bytes: the environment's array has room for
the strings only, and its count leaves out the last one. -/
def decoded (argv env : List CStr) : L1Prim where
  argc := (strip argv).length
  argv := (PtrArray.malloc (strip argv).length).store 0 intSize (strip argv)
  environc := env.length - 1
  environ := ((PtrArray.malloc env.length).store 0 (intSize + (pack (strip argv)).length) env).set
    env.length .null

theorem startMH_encoded {argv : List CStr} (env : List CStr) (small : argv.length < 2 ^ 31) :
    startMH (encoded argv env, ((encoded argv env).length : Int)) = some (decoded argv env) := by
  have fewer := strip_length_le argv
  have many := length_le_pack env
  generalize made : encoded argv env = si
  have whole : intBytes (strip argv).length ++ pack (strip argv) ++ pack env = si := made
  have size : si.length = intSize + (pack (strip argv)).length + (pack env).length := by
    simp [← whole, Nat.add_assoc]
  have enough : (intSize : Int) ≤ si.length := by omega
  have count : readInt si = some ((strip argv).length : Int) := by
    rw [← whole, List.append_assoc]
    exact readInt_intBytes (by omega) (by omega) _
  have args := fillPtrs_append (intBytes (strip argv).length) (strip argv) (pack env) 0
    (.malloc (strip argv).length)
  have counted := countStrs_append (si.length + 1)
    (intBytes (strip argv).length ++ pack (strip argv)) env 0 (by omega)
  have strings := fillPtrs_append (intBytes (strip argv).length ++ pack (strip argv)) env [] 0
    (.malloc env.length)
  rw [← List.append_assoc, whole] at args
  rw [whole] at counted
  rw [List.append_nil, whole] at strings
  simp only [List.length_append, intBytes_length, Int.zero_add] at args counted strings
  have last : ((env.length : Int) - 1 + 1) = env.length := by omega
  simp only [startMH, initArgvAndEnv, Int.toNat_natCast, List.take_length, enough, if_true, count,
    Option.bind_some, args, counted, last, strings]
  simp [decoded]

/-! ### The verdict -/

/-- What does survive the encoding. The environment's count is one short, and one null
pointer is stored outside the array. -/
theorem decoded_spec (argv env : List CStr) :
    (decoded argv env).argc = (strip argv).length ∧
    (decoded argv env).argv.Holds (encoded argv env) (strip argv) ∧
    (decoded argv env).argv.InBounds ∧
    (decoded argv env).environ.Holds (encoded argv env) env ∧
    (decoded argv env).environ.elem env.length = some .null ∧
    (decoded argv env).environc = env.length - 1 ∧
    ∀ i ∈ (decoded argv env).environ.written,
      (¬ (0 ≤ i ∧ i < (decoded argv env).environ.cap) ↔ i = env.length) := by
  have args := PtrArray.store_holds (intBytes (strip argv).length) (strip argv) (pack env) 0
    (.malloc (strip argv).length)
  have strings := PtrArray.store_holds (intBytes (strip argv).length ++ pack (strip argv)) env [] 0
    (.malloc env.length)
  simp only [List.length_append, intBytes_length, List.append_nil, Int.zero_add] at args strings
  refine ⟨rfl, ?_, ?_, ?_, ?_, rfl, ?_⟩
  · intro i h
    simpa [decoded, encoded] using args i h
  · intro i mem
    obtain old | inside := PtrArray.mem_store_written.mp mem
    · cases old
    · simpa [decoded, PtrArray.malloc] using inside
  · intro i h
    have inside : (i : Int) ≠ env.length := by omega
    simpa [decoded, encoded, PtrArray.set, inside] using strings i h
  · simp [decoded, PtrArray.set]
  · intro i mem
    obtain rfl | mem := List.mem_cons.mp mem
    · simp [decoded, PtrArray.set, PtrArray.malloc]
    · obtain old | inside := PtrArray.mem_store_written.mp mem
      · cases old
      · simp [decoded, PtrArray.set, PtrArray.malloc]
        omega

theorem environc_ne {argv env : List CStr} {info : List UInt8 × Int} {r : L1Prim}
    (sent : startinfo argv env = some info) (received : startMH info = some r) :
    r.environc ≠ env.length := by
  obtain ⟨rfl, small⟩ := startinfo_some sent
  rw [startMH_encoded env small, Option.some.injEq] at received
  obtain rfl := received
  show (env.length : Int) - 1 ≠ env.length
  omega

/-- No start information survives: the count of environment strings is always wrong. -/
theorem not_survives (argv env : List CStr) : ¬ Survives argv env := by
  intro ⟨info, r, sent, received, faithful⟩
  exact environc_ne sent received faithful.environc

/-- One argument and one environment string: both assertions hold, but the null pointer
goes behind the array of one element, and the count says that there is no string. -/
theorem exists_not_survives :
    ∃ argv env : List CStr, CoresHaveValues argv ∧
      (∃ info r, startinfo argv env = some info ∧ startMH info = some r ∧
        env.length = 1 ∧ r.environc = 0 ∧ r.environ.cap = 1 ∧ 1 ∈ r.environ.written) ∧
      ¬ Survives argv env := by
  let arg : CStr := ⟨ascii "a", by decide⟩
  let var : CStr := ⟨ascii "X=1", by decide⟩
  have sent : startinfo [arg] [var] =
      some (encoded [arg] [var], ((encoded [arg] [var]).length : Int)) :=
    startinfo_encoded (by unfold CoresHaveValues; decide) (by decide)
  have received := startMH_encoded [var] (show [arg].length < 2 ^ 31 by decide)
  refine ⟨[arg], [var], by unfold CoresHaveValues; decide,
    ⟨_, _, sent, received, rfl, by decide, by decide, by decide⟩, ?_⟩
  intro ⟨info, r, sent, received, faithful⟩
  exact environc_ne sent received faithful.environc

end EBBLib.StartInfo
