import EBBLib.Start.RoundTrip

/-!
# The size accounting of `startinfo`

The size is added up for all arguments and the environment, decides the allocation, and is
decremented for the options that are not copied. The sums wrap, so an allocation may be
smaller than what was added up; the accounting is exact all the same where the bytes that
are written fit into it and no option lacks its value.
-/

namespace EBBLib.StartInfo

/-- What `startinfo` should guarantee when it returns. -/
structure Accounted (argv environ : List CStr) (info : List UInt8 × Int) : Prop where
  bytes : info.1 = intBytes (strip argv).length ++ pack (strip argv) ++ pack environ
  argc : readInt info.1 = some ((strip argv).length : Int)
  room : (info.1.length : Int) ≤ allocated argv environ
  size : info.2 = info.1.length

/-- `startinfo` returns, without a read or a write outside its objects, and its accounting
is exact. -/
def Exact (argv environ : List CStr) : Prop :=
  ∃ info, startinfo argv environ = some info ∧ Accounted argv environ info

/-- The accounting of `startinfo` is exact when each option has its value and the bytes fit into
the allocation, and only then. -/
theorem exact_iff (argv environ : List CStr) (small : argv.length < 2 ^ 31) :
    Exact argv environ ↔
      valuesPresent argv ∧ (written argv environ : Int) ≤ wrapInt (total argv environ) := by
  rw [← startinfo_isSome_iff argv environ small]
  constructor
  · rintro ⟨info, ran, _⟩
    rw [ran]
    rfl
  · intro ran
    obtain ⟨-, room⟩ := (startinfo_isSome_iff argv environ small).mp ran
    obtain ⟨info, ran⟩ := Option.isSome_iff_exists.mp ran
    obtain ⟨rfl, -⟩ := startinfo_some ran
    have fewer := strip_length_le argv
    refine ⟨_, ran, rfl, ?_, ?_, rfl⟩
    · rw [encoded, List.append_assoc]
      exact readInt_intBytes (by omega) (by omega) _
    · rw [allocated_eq]
      have size : (encoded argv environ).length = written argv environ := by
        simp [encoded, written, Nat.add_assoc]
      rw [size]
      exact room

/-- Two options and a value, which is an option by itself. -/
theorem exact_iff_sample : Exact [⟨ascii "a", by decide⟩, ⟨ascii "-ebbos_cores", by decide⟩,
    ⟨ascii "-ebbos_cores", by decide⟩, ⟨ascii "-ebbos", by decide⟩] [⟨ascii "X=1", by decide⟩] :=
  (exact_iff _ _ (by decide)).mpr ⟨by decide, by decide⟩

/-- The value of the last option is missing: it is read behind the arguments. -/
theorem exists_not_exact : ∃ argv environ : List CStr,
    argv = [⟨ascii "a", by decide⟩, ⟨ascii "-ebbos_cores", by decide⟩] ∧
      startinfo argv environ = none ∧ ¬ Exact argv environ := by
  have none : startinfo [⟨ascii "a", by decide⟩, ⟨ascii "-ebbos_cores", by decide⟩] [] =
      none := by decide
  refine ⟨_, [], rfl, none, ?_⟩
  rintro ⟨info, ran, _⟩
  rw [none] at ran
  cases ran

end EBBLib.StartInfo
