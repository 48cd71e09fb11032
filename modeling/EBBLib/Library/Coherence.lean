import EBBLib.Library.Transition
import Mathlib.Logic.Function.Basic

/-!
# Coherent copies of one object

Processors keep copies of an object of a backing store. A directory knows whether the object is
busy, that is, whether a client holds it for writing, and whether a dirty copy has been dropped
while others stayed. A writer changes the copy of its own processor and hands the new value to
the others when it releases the object. Besides, a client may save a copy: it marks the copy as
busy, writes it to the store and takes both marks away.

All of it implements a register with one writer at a time, provided that no client acquires the
object while a copy is being saved. Any number of objects implement as many registers.
-/

namespace Coherence

/-- A copy of the object. -/
@[ext] structure Copy (V : Type*) where
  data : V
  dirty : Bool
  busy : Bool

/-- What a client does with the object. -/
inductive Role where
  | none
  | writing
  /-- Has marked the copy of its processor and not yet saved it. -/
  | saving
  | clearing
deriving DecidableEq

/-- The copies by processor, the directory, the backing store and the clients. -/
@[ext] structure Cell (P C V : Type*) where
  copies : P → Option (Copy V)
  busy : Bool
  modified : Bool
  store : V
  role : C → Role

/-- What a client does with the register. -/
inductive Event (C V : Type*) where
  | read (c : C) (v : V)
  | acquire (c : C) (v : V)
  | release (c : C) (v : V)
deriving DecidableEq

/-- A register with at most one writer, who sees the value when it comes and changes it when it
goes. -/
structure Register (C V : Type*) where
  value : V
  holder : Option C
deriving DecidableEq

/-- The register answers with its value, to nobody while there is a writer. -/
def Register.step {C V : Type*} [DecidableEq C] [DecidableEq V] (r : Register C V) :
    Event C V → Option (Register C V)
  | .read _ v => if r.holder = none ∧ v = r.value then some r else none
  | .acquire c v =>
      if r.holder = none ∧ v = r.value then some { r with holder := some c } else none
  | .release c v => if r.holder = some c then some ⟨v, none⟩ else none

variable {P C V : Type*}

namespace Cell

section

variable [DecidableEq P]

/-- A processor gets another copy, or none. -/
def put (l : Cell P C V) (p : P) (x : Option (Copy V)) : Cell P C V :=
  { l with copies := Function.update l.copies p x }

variable (l : Cell P C V) (p q : P) (c : C) (x : Option (Copy V))

@[simp, grind =] theorem put_copies : (l.put p x).copies q = if q = p then x else l.copies q :=
  Function.update_apply ..

@[simp, grind =] theorem put_busy : (l.put p x).busy = l.busy := rfl

@[simp, grind =] theorem put_modified : (l.put p x).modified = l.modified := rfl

@[simp, grind =] theorem put_store : (l.put p x).store = l.store := rfl

@[simp, grind =] theorem put_role : (l.put p x).role c = l.role c := rfl

end

section

variable [DecidableEq C]

/-- A client gets another role. -/
def plays (l : Cell P C V) (c : C) (role : Role) : Cell P C V :=
  { l with role := Function.update l.role c role }

variable (l : Cell P C V) (p : P) (c d : C) (role : Role)

@[simp, grind =] theorem plays_copies : (l.plays c role).copies p = l.copies p := rfl

@[simp, grind =] theorem plays_busy : (l.plays c role).busy = l.busy := rfl

@[simp, grind =] theorem plays_modified : (l.plays c role).modified = l.modified := rfl

@[simp, grind =] theorem plays_store : (l.plays c role).store = l.store := rfl

@[simp, grind =] theorem plays_role :
    (l.plays c role).role d = if d = c then role else l.role d :=
  Function.update_apply ..

end

/-- All copies change. -/
def all (l : Cell P C V) (f : Copy V → Copy V) (busy : Bool) : Cell P C V :=
  { l with copies := fun p => (l.copies p).map f, busy }

variable (l : Cell P C V) (f : Copy V → Copy V) (busy : Bool) (p : P) (c : C)

@[simp, grind =] theorem all_copies : (l.all f busy).copies p = (l.copies p).map f := rfl

@[simp, grind =] theorem all_busy : (l.all f busy).busy = busy := rfl

@[simp, grind =] theorem all_modified : (l.all f busy).modified = l.modified := rfl

@[simp, grind =] theorem all_store : (l.all f busy).store = l.store := rfl

@[simp, grind =] theorem all_role : (l.all f busy).role c = l.role c := rfl

end Cell

/-- The client has marked a copy. -/
@[grind =] def Role.Marks (role : Role) : Prop := role = .saving ∨ role = .clearing

/-- The moves, with the event of the register that each one is. -/
inductive Step [DecidableEq P] [DecidableEq C] (home : C → P) (l : Cell P C V) :
    Option (Event C V) → Cell P C V → Prop
  /-- A copy is made from the one of another processor. -/
  | fetch {p q : P} {x : Copy V} (missing : l.copies p = none) (there : l.copies q = some x)
      (free : l.busy = false) : Step home l none (l.put p (some ⟨x.data, false, false⟩))
  /-- The first copy is made from the store. -/
  | load {p : P} (nowhere : ∀ q, l.copies q = none) :
      Step home l none (l.put p (some ⟨l.store, false, false⟩))
  /-- A copy is dropped that is not the last one. -/
  | drop {p q : P} {x y : Copy V} (here : l.copies p = some x) (idle : x.busy = false)
      (other : q ≠ p) (there : l.copies q = some y) :
      Step home l none { l.put p none with modified := l.modified || x.dirty }
  /-- The last copy is dropped. -/
  | dropLast {p : P} {x : Copy V} (here : l.copies p = some x) (idle : x.busy = false)
      (last : ∀ q, q ≠ p → l.copies q = none) :
      Step home l none
        { l.put p none with
          modified := false
          store := if l.modified || x.dirty then x.data else l.store }
  | read {c : C} {x : Copy V} (here : l.copies (home c) = some x) (idle : x.busy = false) :
      Step home l (some (.read c x.data)) l
  /-- All copies become busy. No copy is being saved. -/
  | acquire {c : C} {x : Copy V} (here : l.copies (home c) = some x) (idle : x.busy = false)
      (quiet : ∀ p y, l.copies p = some y → y.busy = true → l.busy = true) :
      Step home l (some (.acquire c x.data))
        ((l.all (fun y => { y with busy := true }) true).plays c .writing)
  | write {c : C} {x : Copy V} {v : V} (writer : l.role c = .writing)
      (here : l.copies (home c) = some x) :
      Step home l none (l.put (home c) (some { x with data := v, dirty := true }))
  /-- All copies get the value of the writer. -/
  | release {c : C} {x : Copy V} (writer : l.role c = .writing)
      (here : l.copies (home c) = some x) :
      Step home l (some (.release c x.data))
        ((l.all (fun y => { y with data := x.data, busy := false }) false).plays c .none)
  | hold {c : C} {x : Copy V} (noRole : l.role c = .none) (here : l.copies (home c) = some x)
      (idle : x.busy = false) :
      Step home l none ((l.put (home c) (some { x with busy := true })).plays c .saving)
  | save {c : C} {x : Copy V} (saver : l.role c = .saving) (here : l.copies (home c) = some x) :
      Step home l none { l.plays c .clearing with store := x.data }
  | clear {c : C} {x : Copy V} (clearer : l.role c = .clearing)
      (here : l.copies (home c) = some x) :
      Step home l none
        ((l.put (home c) (some { x with dirty := false, busy := false })).plays c .none)

/-- The copies implement the register. -/
structure Coherent (home : C → P) (l : Cell P C V) (r : Register C V) : Prop where
  holder : ∀ c, r.holder = some c ↔ l.role c = .writing
  busy : l.busy = true ↔ r.holder.isSome
  has : ∀ c, l.role c = .writing → ∃ x, l.copies (home c) = some x ∧
    (x.dirty = true ∨ x.data = r.value)
  locked : l.busy = true → ∀ p x, l.copies p = some x → x.busy = true
  /-- A copy that is busy although the object is free is being saved. -/
  marked : l.busy = false → ∀ p x, l.copies p = some x → x.busy = true →
    ∃ c, home c = p ∧ (l.role c).Marks
  marks : ∀ c, (l.role c).Marks → l.busy = false ∧ ∃ x, l.copies (home c) = some x ∧
    x.busy = true ∧ (l.role c = .clearing → l.store = x.data)
  alone : ∀ c d, (l.role c).Marks → (l.role d).Marks → home c = home d → c = d
  agree : ∀ p x, l.copies p = some x → (∀ c, l.role c = .writing → home c ≠ p) →
    x.data = r.value
  /-- The value is not lost. -/
  kept : l.store = r.value ∨ l.modified = true ∨ ∃ p x, l.copies p = some x ∧ x.dirty = true
  gone : (∀ p, l.copies p = none) → l.modified = false ∧ l.store = r.value

section

variable {home : C → P} {l : Cell P C V} {r : Register C V} {p q : P} {x y : Copy V} {c d : C}

namespace Coherent

/-- Nobody writes a free object. -/
theorem no_writer (h : Coherent home l r) (free : l.busy = false) (c : C) :
    l.role c ≠ .writing := by
  intro writer
  have := h.busy.mpr (by rw [(h.holder c).mpr writer]; rfl)
  rw [free] at this
  cases this

theorem holder_eq_none (h : Coherent home l r) (free : l.busy = false) : r.holder = none := by
  cases holder : r.holder with
  | none => rfl
  | some c => exact absurd ((h.holder c).mp holder) (h.no_writer free c)

theorem one_writer (h : Coherent home l r) (first : l.role c = .writing)
    (second : l.role d = .writing) : c = d := by
  have := (h.holder c).mpr first
  rw [(h.holder d).mpr second, Option.some.injEq] at this
  exact this.symm

theorem busy_of_writer (h : Coherent home l r) (writer : l.role c = .writing) : l.busy = true :=
  h.busy.mpr (by rw [(h.holder c).mpr writer]; rfl)

theorem free (h : Coherent home l r) (here : l.copies p = some x) (idle : x.busy = false) :
    l.busy = false := by
  by_contra busy
  have := h.locked (by simpa using busy) p x here
  rw [idle] at this
  cases this

/-- All copies of a free object have its value. -/
theorem data_eq (h : Coherent home l r) (free : l.busy = false) (here : l.copies p = some x) :
    x.data = r.value :=
  h.agree p x here fun c writer => absurd writer (h.no_writer free c)

/-- Without copies and clients the value is in the store. -/
theorem start (nowhere : ∀ p, l.copies p = none) (noRole : ∀ c, l.role c = .none)
    (free : l.busy = false) (unmodified : l.modified = false) :
    Coherent home l ⟨l.store, none⟩ where
  holder := by grind
  busy := by simp [free]
  has := by grind
  locked := by grind
  marked := by grind
  marks := by grind
  alone := by grind
  agree := by grind
  kept := .inl rfl
  gone _ := ⟨unmodified, rfl⟩

section

variable [DecidableEq P]

theorem fetch (h : Coherent home l r) (missing : l.copies p = none)
    (there : l.copies q = some x) (free : l.busy = false) :
    Coherent home (l.put p (some ⟨x.data, false, false⟩)) r where
  holder := h.holder
  busy := h.busy
  has c writer := absurd writer (h.no_writer free c)
  locked := by grind
  marked := by grind [h.marked]
  marks := by grind [h.marks]
  alone := h.alone
  agree := by grind [h.data_eq free]
  kept := by
    refine h.kept.imp_right (Or.imp_right ?_)
    rintro ⟨p', y, here, dirty⟩
    exact ⟨p', y, by grind, dirty⟩
  gone nowhere := absurd (nowhere p) (by simp)

theorem load (h : Coherent home l r) (nowhere : ∀ q, l.copies q = none) :
    Coherent home (l.put p (some ⟨l.store, false, false⟩)) r where
  holder := h.holder
  busy := h.busy
  has := by grind [h.has]
  locked busy := by
    obtain ⟨c, holder⟩ := Option.isSome_iff_exists.mp (h.busy.mp busy)
    obtain ⟨x, here, _⟩ := h.has c ((h.holder c).mp holder)
    rw [nowhere] at here
    cases here
  marked := by grind
  marks := by grind [h.marks]
  alone := h.alone
  agree := by grind [h.gone nowhere]
  kept := .inl (h.gone nowhere).2
  gone nowhere := absurd (nowhere p) (by simp)

theorem drop (h : Coherent home l r) (here : l.copies p = some x) (idle : x.busy = false)
    (other : q ≠ p) (there : l.copies q = some y) :
    Coherent home { l.put p none with modified := l.modified || x.dirty } r where
  holder := h.holder
  busy := h.busy
  has c writer := absurd writer (h.no_writer (h.free here idle) c)
  locked := by grind [h.free here idle]
  marked := by grind [h.marked]
  marks := by grind [h.marks]
  alone := h.alone
  agree := by grind [h.agree]
  kept := by
    obtain same | modified | ⟨p', z, there', dirty⟩ := h.kept
    · exact .inl same
    · exact .inr (.inl (by simp [modified]))
    · by_cases same : p' = p
      · subst same
        rw [here, Option.some.injEq] at there'
        exact .inr (.inl (by simp [there', dirty]))
      · exact .inr (.inr ⟨p', z, by simp [same, there'], dirty⟩)
  gone nowhere := absurd (nowhere q) (by simp [other, there])

theorem dropLast (h : Coherent home l r) (here : l.copies p = some x) (idle : x.busy = false)
    (last : ∀ q, q ≠ p → l.copies q = none) :
    Coherent home { l.put p none with
      modified := false
      store := if l.modified || x.dirty then x.data else l.store } r where
  holder := h.holder
  busy := h.busy
  has c writer := absurd writer (h.no_writer (h.free here idle) c)
  locked := by grind [h.free here idle]
  marked := by grind [h.marked]
  marks := by grind [h.marks]
  alone := h.alone
  agree := by grind [h.agree]
  kept := by grind [h.kept, h.data_eq (h.free here idle) here]
  gone := by grind [h.kept, h.data_eq (h.free here idle) here]

theorem write {v : V} (h : Coherent home l r) (writer : l.role c = .writing)
    (here : l.copies (home c) = some x) :
    Coherent home (l.put (home c) (some { x with data := v, dirty := true })) r where
  holder := h.holder
  busy := h.busy
  has := by grind [h.has, h.one_writer writer]
  locked := by grind [h.locked]
  marked := by grind [h.busy_of_writer writer]
  marks := by grind [h.marks, h.busy_of_writer writer]
  alone := h.alone
  agree := by grind [h.agree]
  kept := .inr (.inr ⟨home c, { x with data := v, dirty := true }, by simp, rfl⟩)
  gone nowhere := absurd (nowhere (home c)) (by simp)

end

variable [DecidableEq C]

theorem acquire (h : Coherent home l r) (here : l.copies (home c) = some x)
    (idle : x.busy = false)
    (quiet : ∀ p y, l.copies p = some y → y.busy = true → l.busy = true) :
    Coherent home ((l.all (fun y => { y with busy := true }) true).plays c .writing)
      { r with holder := some c } where
  holder := by grind [h.no_writer (h.free here idle)]
  busy := by simp
  has := by grind [h.has, h.data_eq (h.free here idle) here, h.no_writer (h.free here idle)]
  locked _ p y there := by
    obtain ⟨z, _, rfl⟩ := Option.map_eq_some_iff.mp there
    rfl
  marked := by grind
  marks := by grind [h.marks, h.free here idle]
  alone := by grind [h.alone]
  agree p y there _ := by
    obtain ⟨z, before, rfl⟩ := Option.map_eq_some_iff.mp there
    exact h.data_eq (x := z) (h.free here idle) before
  kept := by
    refine h.kept.imp_right (Or.imp_right ?_)
    rintro ⟨p', y, here, dirty⟩
    exact ⟨p', { y with busy := true }, by simp [here], dirty⟩
  gone nowhere := absurd (nowhere (home c)) (by simp [here])

theorem release (h : Coherent home l r) (writer : l.role c = .writing)
    (here : l.copies (home c) = some x) :
    Coherent home ((l.all (fun y => { y with data := x.data, busy := false }) false).plays c .none)
      ⟨x.data, none⟩ where
  holder := by grind [h.one_writer writer]
  busy := by simp
  has := by grind [h.one_writer writer]
  locked := by grind
  marked _ p y there busy := by
    obtain ⟨z, _, rfl⟩ := Option.map_eq_some_iff.mp there
    cases busy
  marks := by grind [h.marks, h.busy_of_writer writer]
  alone := by grind [h.alone]
  agree p y there _ := by
    obtain ⟨z, _, rfl⟩ := Option.map_eq_some_iff.mp there
    rfl
  kept := by
    obtain ⟨z, same, changed⟩ := h.has c writer
    rw [here, Option.some.injEq] at same
    subst same
    obtain dirty | old := changed
    · exact .inr (.inr ⟨home c, { x with busy := false }, by simp [here], dirty⟩)
    · rw [old]
      refine h.kept.imp_right (Or.imp_right ?_)
      rintro ⟨p', y, there, dirty⟩
      exact ⟨p', { y with data := r.value, busy := false }, by simp [there], dirty⟩
  gone nowhere := absurd (nowhere (home c)) (by simp [here])

theorem save (h : Coherent home l r) (saver : l.role c = .saving)
    (here : l.copies (home c) = some x) :
    Coherent home { l.plays c .clearing with store := x.data } r where
  holder := by grind [h.holder]
  busy := h.busy
  has := by grind [h.has]
  locked := by grind [h.locked]
  marked := by grind [h.marked]
  marks := by
    have own := h.marks c (.inl saver)
    grind [h.marks, h.data_eq]
  alone := by
    have own : (l.role c).Marks := .inl saver
    grind [h.alone]
  agree := by grind [h.agree]
  kept := .inl (h.data_eq (h.marks c (.inl saver)).1 here)
  gone nowhere := absurd (nowhere (home c)) (by simp [here])

variable [DecidableEq P]

theorem hold (h : Coherent home l r) (noRole : l.role c = .none)
    (here : l.copies (home c) = some x) (idle : x.busy = false) :
    Coherent home ((l.put (home c) (some { x with busy := true })).plays c .saving) r where
  holder := by grind [h.holder]
  busy := h.busy
  has := by grind [h.no_writer (h.free here idle)]
  locked := by grind [h.free here idle]
  marked := by grind [h.marked]
  marks := by grind [h.marks, h.free here idle]
  alone := by
    have fresh : ∀ d, (l.role d).Marks → home d ≠ home c := by grind [h.marks]
    grind [h.alone]
  agree := by grind [h.data_eq (h.free here idle)]
  kept := by
    refine h.kept.imp_right (Or.imp_right ?_)
    rintro ⟨p', y, there, dirty⟩
    by_cases same : p' = home c
    · rw [same, here, Option.some.injEq] at there
      exact ⟨home c, { x with busy := true }, by simp, there ▸ dirty⟩
    · exact ⟨p', y, by simp [same, there], dirty⟩
  gone nowhere := absurd (nowhere (home c)) (by simp)

theorem clear (h : Coherent home l r) (clearer : l.role c = .clearing)
    (here : l.copies (home c) = some x) :
    Coherent home
      ((l.put (home c) (some { x with dirty := false, busy := false })).plays c .none) r where
  holder := by grind [h.holder]
  busy := h.busy
  has d writer := by grind [h.no_writer (h.marks c (.inr clearer)).1]
  locked := by grind [(h.marks c (.inr clearer)).1]
  marked := by grind [h.marked]
  marks := by
    have own : (l.role c).Marks := .inr clearer
    grind [h.marks, h.alone]
  alone := by grind [h.alone]
  agree := by grind [h.agree]
  kept := by
    obtain ⟨free, y, there, _, saved⟩ := h.marks c (.inr clearer)
    rw [here, Option.some.injEq] at there
    exact .inl ((saved clearer).trans (there ▸ h.data_eq free here))
  gone nowhere := absurd (nowhere (home c)) (by simp)

/-- A move keeps the copies coherent, and the register makes its event. -/
theorem step [DecidableEq V] {e : Option (Event C V)} {l' : Cell P C V} (h : Coherent home l r)
    (moved : Step home l e l') :
    ∃ r', e.elim (some r) r.step = some r' ∧ Coherent home l' r' := by
  cases moved with
  | fetch missing there free => exact ⟨r, rfl, h.fetch missing there free⟩
  | load nowhere => exact ⟨r, rfl, h.load nowhere⟩
  | drop here idle other there => exact ⟨r, rfl, h.drop here idle other there⟩
  | dropLast here idle last => exact ⟨r, rfl, h.dropLast here idle last⟩
  | read here idle =>
      have free := h.free here idle
      exact ⟨r, if_pos ⟨h.holder_eq_none free, h.data_eq free here⟩, h⟩
  | acquire here idle quiet =>
      have free := h.free here idle
      exact ⟨_, if_pos ⟨h.holder_eq_none free, h.data_eq free here⟩, h.acquire here idle quiet⟩
  | write writer here => exact ⟨r, rfl, h.write writer here⟩
  | release writer here => exact ⟨_, if_pos ((h.holder _).mpr writer), h.release writer here⟩
  | hold noRole here idle => exact ⟨r, rfl, h.hold noRole here idle⟩
  | save saver here => exact ⟨r, rfl, h.save saver here⟩
  | clear clearer here => exact ⟨r, rfl, h.clear clearer here⟩

end Coherent

end

/-- A register for each object. -/
def registers {I : Type*} [DecidableEq I] [DecidableEq C] [DecidableEq V] :
    Machine (I → Register C V) (I × Event C V) where
  init r := ∀ i, (r i).holder = none
  step r e := ((r e.1).step e.2).map (Function.update r e.1)

/-- A move of one object keeps all of them coherent with the registers. -/
theorem registers_move {I : Type*} [DecidableEq I] [DecidableEq P] [DecidableEq C] [DecidableEq V]
    {home : C → P} {among : I → Prop} {cells cells' : I → Cell P C V} {r : I → Register C V} {i : I}
    {e : Option (Event C V)} (coherent : ∀ j, among j → Coherent home (cells j) (r j))
    (here : among i) (others : ∀ j, among j → j ≠ i → cells' j = cells j)
    (moved : Step home (cells i) e (cells' i)) :
    ∃ r', registers.exec r (e.toList.map (i, ·)) = some r' ∧
      ∀ j, among j → Coherent home (cells' j) (r' j) := by
  obtain ⟨x, answered, kept⟩ := (coherent i here).step moved
  refine ⟨Function.update r i x, ?_, fun j member => ?_⟩
  · cases e with
    | none =>
        obtain rfl : r i = x := Option.some.inj answered
        rw [Function.update_eq_self]
        rfl
    | some event =>
        have answered : (r i).step event = some x := answered
        refine Machine.exec_one.mpr ?_
        simp [registers, answered]
  · by_cases same : j = i
    · subst same
      rwa [Function.update_self]
    · rw [Function.update_of_ne same, others j member same]
      exact coherent j member

end Coherence
