import EBBLib.Start.StartInfo
import Mathlib.Data.List.Flatten

/-!
# When the encoder succeeds

`startinfo` adds up the size of all arguments and of the environment, and takes the sizes of the
options off again. The sums wrap. It returns when each option that needs a value has one and
the bytes that are written fit into what the wrapped sum allocates.
-/

namespace EBBLib.StartInfo

/-- The arguments without the `-ebbos` options and their values. -/
def strip : List CStr → List CStr
  | [] => []
  | a :: rest =>
      if startsWith ebbosCores a then
        match rest with
        | [] => []
        | _ :: rest => strip rest
      else if startsWith ebbosArg a then strip rest
      else a :: strip rest

/-- Strings with their NULs, one behind the other. -/
def pack (xs : List CStr) : List UInt8 := xs.flatMap fun x => x.bytes ++ [0]

@[simp] theorem pack_nil : pack [] = [] := rfl

@[simp] theorem pack_cons (x : CStr) (xs : List CStr) :
    pack (x :: xs) = x.bytes ++ 0 :: pack xs := by
  simp [pack]

/-- Every `-ebbos_cores` that is not itself a value is followed by its value. -/
def valuesPresent : List CStr → Bool
  | [] => true
  | a :: rest =>
      if startsWith ebbosCores a then
        match rest with
        | [] => false
        | _ :: rest => valuesPresent rest
      else valuesPresent rest

/-- The size that is given to `malloc`. -/
def allocated (argv environ : List CStr) : Int := addSizes (addSizes intSize argv) environ

/-- The bytes of the count, all arguments and the environment. -/
def total (argv environ : List CStr) : Nat := intSize + (pack argv).length + (pack environ).length

/-- The bytes of the count, the arguments that are copied and the environment. -/
def written (argv environ : List CStr) : Nat :=
  intSize + (pack (strip argv)).length + (pack environ).length

/-! ### What is written -/

theorem startsWith_ebbosArg {a : CStr} (cores : startsWith ebbosCores a) :
    startsWith ebbosArg a := by
  have shorter : ebbosArg <+: ebbosCores := by decide
  simp only [startsWith, List.isPrefixOf_iff_prefix] at cores ⊢
  exact shorter.trans cores

theorem put_some {cap : Int} {cur bytes out : List UInt8} (h : put cap cur bytes = some out) :
    out = cur ++ bytes := by
  simp only [put, Option.ite_none_right_eq_some, Option.some.injEq] at h
  exact h.2.symm

theorem strip_option {a : CStr} {rest : List CStr} (other : ¬ startsWith ebbosCores a)
    (ebbos : startsWith ebbosArg a) : strip (a :: rest) = strip rest := by
  rw [strip.eq_def]
  simp [other, ebbos]

theorem strip_plain {a : CStr} {rest : List CStr} (other : ¬ startsWith ebbosCores a)
    (plain : ¬ startsWith ebbosArg a) : strip (a :: rest) = a :: strip rest := by
  rw [strip.eq_def]
  simp [other, plain]

/-- The argument loop packs the arguments that remain, and counts the others off. -/
theorem copyArgs_some {cap s s' argcl argcl' : Int} {args : List CStr} {cur cur' : List UInt8}
    (h : copyArgs cap args cur s argcl = some (cur', s', argcl')) :
    cur' = cur ++ pack (strip args) ∧ argcl' = argcl - args.length + (strip args).length := by
  induction args using strip.induct generalizing cur s argcl with
  | case1 =>
      simp only [copyArgs, Option.some.injEq, Prod.mk.injEq] at h
      obtain ⟨rfl, rfl, rfl⟩ := h
      simp [strip]
  | case2 a cores =>
      simp [copyArgs, startsWith_ebbosArg cores, parseEbbosArg, cores] at h
  | case3 a cores v rest ih =>
      simp only [copyArgs, startsWith_ebbosArg cores, parseEbbosArg, cores, if_true] at h
      obtain ⟨bytes, count⟩ := ih h
      simp only [strip, cores, if_true, List.length_cons]
      exact ⟨bytes, by omega⟩
  | case4 a rest other ebbos ih =>
      simp [copyArgs, ebbos, parseEbbosArg, other] at h
      obtain ⟨bytes, count⟩ := ih h
      rw [strip_option other ebbos]
      exact ⟨bytes, by simp; omega⟩
  | case5 a rest other plain ih =>
      simp only [copyArgs, plain, if_false, Bool.false_eq_true, Option.bind_eq_some_iff] at h
      obtain ⟨cur₁, written, h⟩ := h
      obtain ⟨bytes, count⟩ := ih h
      rw [strip_plain other plain]
      refine ⟨by simp [bytes, put_some written], by simp; omega⟩

theorem copyEnviron_some {cap : Int} {env : List CStr} {cur cur' : List UInt8}
    (h : copyEnviron cap env cur = some cur') : cur' = cur ++ pack env := by
  induction env generalizing cur with
  | nil => simpa [copyEnviron] using h.symm
  | cons e rest ih =>
      simp only [copyEnviron, Option.bind_eq_some_iff] at h
      obtain ⟨cur₁, written, h⟩ := h
      simp [ih h, put_some written]

@[simp] theorem intBytes_length (v : Int) : (intBytes v).length = intSize := rfl

/-- The bytes that the encoder is to produce. -/
def encoded (argv env : List CStr) : List UInt8 :=
  intBytes (strip argv).length ++ pack (strip argv) ++ pack env

/-- Where the encoder succeeds, its bytes are the packed strings behind their count. -/
theorem startinfo_some {argv env : List CStr} {info : List UInt8 × Int}
    (h : startinfo argv env = some info) :
    info = (encoded argv env, ((encoded argv env).length : Int)) ∧ argv.length < 2 ^ 31 := by
  simp only [startinfo, Option.ite_none_right_eq_some, Option.bind_eq_some_iff,
    Option.some.injEq] at h
  obtain ⟨⟨-, small⟩, cur, head, ⟨cur₁, s', argcl⟩, args, cur₂, environ, fits, rfl⟩ := h
  obtain ⟨rfl, rfl⟩ := copyArgs_some args
  obtain rfl := copyEnviron_some environ
  obtain rfl := put_some head
  have count : (argv.length : Int) - argv.length + (strip argv).length = (strip argv).length := by
    omega
  have front : (intBytes argv.length ++ pack (strip argv) ++ pack env).drop intSize =
      pack (strip argv) ++ pack env := by
    rw [List.append_assoc, ← intBytes_length argv.length]
    exact List.drop_left
  refine ⟨?_, small⟩
  simp only [List.nil_append] at fits
  simp only [List.nil_append, count, front, fits, encoded]
  simp

theorem length_le_pack (xs : List CStr) : xs.length ≤ (pack xs).length := by
  induction xs with
  | nil => simp
  | cons x xs ih =>
      simp
      omega

/-- Arguments are left out, and none is added or moved. -/
theorem strip_sublist (argv : List CStr) : (strip argv).Sublist argv := by
  induction argv using strip.induct with
  | case1 => exact .slnil
  | case2 a cores => simp [strip, cores]
  | case3 a cores v rest ih =>
      simp only [strip, cores, if_true]
      exact (ih.cons v).cons a
  | case4 a rest other ebbos ih =>
      rw [strip_option other ebbos]
      exact ih.cons a
  | case5 a rest other plain ih =>
      rw [strip_plain other plain]
      exact ih.cons_cons a

theorem strip_length_le (argv : List CStr) : (strip argv).length ≤ argv.length :=
  (strip_sublist argv).length_le

theorem pack_strip_length_le (argv : List CStr) :
    (pack (strip argv)).length ≤ (pack argv).length :=
  ((strip_sublist argv).flatMap _).length_le

/-! ### When it is written -/

theorem put_eq {cap : Int} (cur bytes : List UInt8)
    (room : (cur.length : Int) + bytes.length ≤ cap) : put cap cur bytes = some (cur ++ bytes) := by
  simp [put, room]

theorem wrapInt_sub (x y : Int) : wrapInt (wrapInt x - y) = wrapInt (x - y) :=
  wrapInt_add x (-y)

theorem addSizes_wrapInt (s : Int) (xs : List CStr) :
    addSizes (wrapInt s) xs = wrapInt (s + (pack xs).length) := by
  induction xs generalizing s with
  | nil => simp [addSizes]
  | cons x xs ih =>
      have step : wrapInt (wrapInt (wrapInt s + x.bytes.length) + 1) =
          wrapInt (s + x.bytes.length + 1) := by
        rw [wrapInt_add, Int.add_assoc, wrapInt_add, ← Int.add_assoc]
      rw [addSizes, step, ih]
      congr 1
      simp
      omega

theorem allocated_eq (argv environ : List CStr) :
    allocated argv environ = wrapInt (total argv environ) := by
  have start : ((intSize : Nat) : Int) = wrapInt (intSize : Nat) := by decide
  rw [allocated, start, addSizes_wrapInt, addSizes_wrapInt]
  congr 1

theorem valuesPresent_of_not {a : CStr} {rest : List CStr} (other : ¬ startsWith ebbosCores a) :
    valuesPresent (a :: rest) = valuesPresent rest := by
  rw [valuesPresent.eq_def]
  simp [other]

theorem put_none {cap : Int} {cur bytes : List UInt8}
    (full : ¬ (cur.length + bytes.length : Int) ≤ cap) : put cap cur bytes = none := if_neg full

/-- The argument loop gets through when each option has its value and the bytes fit. -/
theorem copyArgs_wrapInt {cap : Int} (s argcl : Int) (args : List CStr) (cur : List UInt8)
    (fits : (cur.length : Int) ≤ cap) :
    copyArgs cap args cur (wrapInt s) argcl =
      if valuesPresent args ∧ (cur.length + (pack (strip args)).length : Int) ≤ cap then
        some (cur ++ pack (strip args),
          wrapInt (s - (pack args).length + (pack (strip args)).length),
          argcl - args.length + (strip args).length)
      else none := by
  induction args using strip.induct generalizing cur s argcl with
  | case1 => simp [copyArgs, valuesPresent, strip, fits]
  | case2 a cores =>
      simp [copyArgs, startsWith_ebbosArg cores, parseEbbosArg, cores, valuesPresent]
  | case3 a cores v rest ih =>
      have option : wrapInt (wrapInt (wrapInt s - (a.bytes.length + 1)) - (v.bytes.length + 1)) =
          wrapInt (s - (a.bytes.length + 1) - (v.bytes.length + 1)) := by
        rw [wrapInt_sub, Int.sub_sub, wrapInt_sub, ← Int.sub_sub]
      have sum : s - (a.bytes.length + 1) - (v.bytes.length + 1) - (pack rest).length =
          s - (pack (a :: v :: rest)).length := by
        simp
        omega
      have count : argcl - 2 - rest.length = argcl - (a :: v :: rest).length := by
        simp
        omega
      simp only [copyArgs, startsWith_ebbosArg cores, parseEbbosArg, cores, if_true, valuesPresent,
        strip, option, ih _ _ cur fits, sum, count]
  | case4 a rest other ebbos ih =>
      have sum : s - (a.bytes.length + 1) - (pack rest).length =
          s - (pack (a :: rest)).length := by
        simp
        omega
      have count : argcl - 1 - rest.length = argcl - (a :: rest).length := by
        simp
        omega
      have one : parseEbbosArg a = 1 := if_neg other
      rw [valuesPresent_of_not other, strip_option other ebbos, ← sum, ← count, ← ih _ _ cur fits,
        copyArgs]
      simp [ebbos, one, wrapInt_sub]
  | case5 a rest other plain ih =>
      have size : ((cur ++ (a.bytes ++ [0])).length + (pack (strip rest)).length : Int) =
          cur.length + (pack (a :: strip rest)).length := by
        simp
        omega
      have sum : s - (pack rest).length + (pack (strip rest)).length =
          s - (pack (a :: rest)).length + (pack (a :: strip rest)).length := by
        simp
        omega
      have count : argcl - rest.length + (strip rest).length =
          argcl - (a :: rest).length + (a :: strip rest).length := by
        simp
        omega
      rw [copyArgs, if_neg plain, valuesPresent_of_not other, strip_plain other plain]
      by_cases room : (cur.length + (a.bytes ++ [0]).length : Int) ≤ cap
      · rw [put_eq cur _ room, Option.bind_some, ih _ _ _ (by simpa using room), size, sum, count]
        simp
      · have full : ¬ (cur.length + (pack (a :: strip rest)).length : Int) ≤ cap := by
          simp at room ⊢
          omega
        rw [put_none room, Option.bind_none, if_neg fun both => full both.2]

theorem copyEnviron_wrap {cap : Int} (env : List CStr) (cur : List UInt8)
    (fits : (cur.length : Int) ≤ cap) :
    copyEnviron cap env cur =
      if (cur.length + (pack env).length : Int) ≤ cap then some (cur ++ pack env) else none := by
  induction env generalizing cur with
  | nil => simp [copyEnviron, fits]
  | cons e rest ih =>
      have size : ((cur ++ (e.bytes ++ [0])).length + (pack rest).length : Int) =
          cur.length + (pack (e :: rest)).length := by
        simp
        omega
      rw [copyEnviron]
      by_cases room : (cur.length + (e.bytes ++ [0]).length : Int) ≤ cap
      · rw [put_eq cur _ room, Option.bind_some, ih _ (by simpa using room), size]
        simp
      · have full : ¬ (cur.length + (pack (e :: rest)).length : Int) ≤ cap := by
          simp at room ⊢
          omega
        rw [put_none room, Option.bind_none, if_neg full]

/-- `startinfo` returns when each option has its value and the bytes fit. -/
theorem startinfo_isSome_iff (argv environ : List CStr) (small : argv.length < 2 ^ 31) :
    (startinfo argv environ).isSome ↔
      valuesPresent argv ∧ (written argv environ : Int) ≤ wrapInt (total argv environ) := by
  have size := allocated_eq argv environ
  rw [allocated] at size
  generalize cap_eq : wrapInt (total argv environ) = cap at size
  have below : cap < 2 ^ 31 := cap_eq ▸ (wrapInt_fits _).2
  by_cases head : (intSize : Int) ≤ cap
  · have front : put cap [] (intBytes argv.length) = some (intBytes argv.length) :=
      put_eq [] _ (by simpa using head)
    have args := copyArgs_wrapInt (total argv environ) argv.length argv (intBytes argv.length)
      (by simpa using head)
    rw [cap_eq] at args
    simp only [startinfo, size]
    rw [if_pos ⟨by omega, small⟩, front, Option.bind_some, args]
    by_cases ready : valuesPresent argv ∧
        ((intBytes argv.length).length + (pack (strip argv)).length : Int) ≤ cap
    · have env := copyEnviron_wrap environ (intBytes argv.length ++ pack (strip argv))
        (by simpa using ready.2)
      have all :
          ((intBytes argv.length ++ pack (strip argv)).length + (pack environ).length : Int) =
          written argv environ := by
        simp [written]
      have kept : (total argv environ : Int) - (pack argv).length + (pack (strip argv)).length =
          written argv environ := by
        simp only [total, written]
        omega
      rw [if_pos ready, Option.bind_some, env, all]
      by_cases room : (written argv environ : Int) ≤ cap
      · have exact : wrapInt (written argv environ) =
            (intBytes argv.length ++ pack (strip argv) ++ pack environ).length := by
          rw [wrapInt_of_fits (by omega) (by omega), ← all]
          simp [Int.add_assoc]
        rw [if_pos room, Option.bind_some, kept, if_pos exact]
        exact iff_of_true rfl ⟨ready.1, room⟩
      · rw [if_neg room, Option.bind_none]
        exact iff_of_false nofun fun both => room both.2
    · rw [if_neg ready, Option.bind_none]
      refine iff_of_false nofun fun both => ready ⟨both.1, ?_⟩
      have room := both.2
      simp only [written] at room
      rw [intBytes_length]
      omega
  · have full : ¬ (written argv environ : Int) ≤ cap := by
      simp only [written]
      omega
    have front : put cap [] (intBytes argv.length) = none := put_none (by simpa using head)
    simp [startinfo, size, front, full]

end EBBLib.StartInfo
