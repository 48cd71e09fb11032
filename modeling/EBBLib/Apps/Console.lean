import EBBLib.Library.Fifo
import EBBLib.Types

/-!
# The console of `contst.c`

Characters that are put wait in a buffer until the output device takes them, as many at a time
as it likes. Characters of the input device go to a second buffer, from whose end `getChar`
takes them. With `UglyEcho` as its action, the console puts its input into its output, and
ignores what `putChar` returns. The handlers of a core run one after the other.
-/

namespace EBBLib.ConsTst

/-- `BUFSIZE`. -/
def bufsize : Nat := 4096

/-- `Console`, with the state of `outEV` at the event manager. -/
structure Console (α : Type*) where
  inlen : Nat
  outlen : Nat
  outstart : Nat
  in_c : Nat → α
  out_c : Nat → α
  outEnabled : Bool

variable {α : Type*}

namespace Console

variable (s : Console α)

/-- `Console_putChar`. -/
def putChar (c : α) : EBBRC × Console α :=
  let stop := s.outstart + s.outlen
  if stop < bufsize then
    let outlen := s.outlen + 1
    (EBBRC.ok, { s with
      out_c := Function.update s.out_c stop c
      outlen
      outEnabled := if outlen = 1 then true else s.outEnabled })
  else (EBBRC.retry, s)

/-- `Console_getChar`, with the character that it stores. -/
def getChar : EBBRC × Option α × Console α :=
  if 0 < s.inlen then
    (EBBRC.ok, some (s.in_c (s.inlen - 1)), { s with inlen := s.inlen - 1 })
  else (EBBRC.retry, none, s)

/-- The loop of `UglyEcho`, with the characters that `putChar` has accepted. -/
def echoFrom : Nat → Console α → List α × Console α
  | 0, s => ([], s)
  | k + 1, s =>
      match s.getChar with
      | (_, some c, s) =>
          let (rc, s) := s.putChar c
          let (cs, s) := echoFrom k s
          (if rc = EBBRC.ok then c :: cs else cs, s)
      | (_, none, s) => ([], s)

/-- `UglyEcho`. Each round takes one character. -/
def uglyEcho : List α × Console α := s.echoFrom s.inlen

/-- `LRTConsoleRead` of some characters into the rest of `in_c`. -/
def read (xs : List α) : Console α :=
  { s with
    in_c := fun i => if s.inlen ≤ i then (xs[i - s.inlen]?).getD (s.in_c i) else s.in_c i
    inlen := s.inlen + xs.length }

/-- `Console_inEvent`, with `UglyEcho` or nothing as the action. -/
def inEvent (echo : Bool) (xs : List α) : List α × Console α :=
  let s := if s.inlen < bufsize then s.read xs else s
  if echo then s.uglyEcho else ([], s)

/-- `Console_outEvent`, when the device takes `n` characters. -/
def outEvent (n : Nat) : Console α :=
  if 0 < s.outlen ∧ 0 < n then
    let outlen := s.outlen - n
    if outlen = 0 then { s with outlen, outstart := 0, outEnabled := false }
    else { s with outlen, outstart := s.outstart + n }
  else s

/-- The characters for the output device. -/
def queue : List α := Fifo.slice s.out_c s.outstart s.outlen

/-- The characters of the input device, the last one first. -/
def stack : List α := (Fifo.slice s.in_c 0 s.inlen).reverse

/-- The room behind the characters for the output device. -/
def room : Nat := bufsize - (s.outstart + s.outlen)

end Console

inductive Action (α : Type*) where
  | putChar (c : α)
  | getChar
  | inEvent (xs : List α)
  | outEvent (n : Nat)
deriving DecidableEq, Repr

/-- The devices transfer no more than what they are asked for. -/
def step (echo : Bool) (s : Console α) : Action α → Option (Console α)
  | .putChar c => some (s.putChar c).2
  | .getChar => some s.getChar.2.2
  | .inEvent xs => if xs.length ≤ bufsize - s.inlen then some (s.inEvent echo xs).2 else none
  | .outEvent n => if n ≤ s.outlen then some (s.outEvent n) else none

/-- `ConsoleCreate`. -/
def create (in_c out_c : Nat → α) : Console α :=
  { inlen := 0, outlen := 0, outstart := 0, in_c, out_c, outEnabled := false }

def machine (α : Type*) (echo : Bool) : Machine (Console α) (Action α) where
  init s := ∃ in_c out_c, s = create in_c out_c
  step := step echo

/-- The characters that are accepted, and those that the device takes. -/
def shows (echo : Bool) (s : Console α) : Action α → Console α → List (Fifo.Event α)
  | .putChar c, _ => if (s.putChar c).1 = EBBRC.ok then [.put c] else []
  | .getChar, _ => []
  | .inEvent xs, _ => (s.inEvent echo xs).1.map .put
  | .outEvent n, _ => [.take (Fifo.slice s.out_c s.outstart n)]

/-! ### The output -/

section

variable {s t : Console α} {c : α} {n : Nat}

/-- Both buffers are within their bounds, and the output event is enabled whenever there is
something to write. -/
structure Good (s : Console α) : Prop where
  inbound : s.inlen ≤ bufsize
  outbound : s.outstart + s.outlen ≤ bufsize
  start : s.outlen = 0 → s.outstart = 0
  enabled : s.outEnabled = true ↔ 0 < s.outlen

theorem putChar_accepts (room : 0 < s.room) :
    (s.putChar c).1 = EBBRC.ok ∧ (s.putChar c).2.queue = s.queue ++ [c] ∧
      (s.putChar c).2.room + 1 = s.room := by
  have small : s.outstart + s.outlen < bufsize := Nat.lt_of_sub_pos room
  have accepted : s.putChar c = (EBBRC.ok, _) := if_pos small
  rw [accepted]
  refine ⟨rfl, Fifo.slice_push, ?_⟩
  show bufsize - (s.outstart + (s.outlen + 1)) + 1 = bufsize - (s.outstart + s.outlen)
  omega

theorem putChar_refuses (full : s.room = 0) : s.putChar c = (EBBRC.retry, s) :=
  if_neg (Nat.not_lt.mpr (Nat.le_of_sub_eq_zero full))

theorem Good.putChar (h : Good s) : Good (s.putChar c).2 := by
  obtain full | room := Nat.eq_zero_or_pos s.room
  · rw [putChar_refuses full]
    exact h
  · have small : s.outstart + s.outlen < bufsize := Nat.lt_of_sub_pos room
    have accepted : s.putChar c = (EBBRC.ok, _) := if_pos small
    rw [accepted]
    refine ⟨h.inbound, ?_, by simp, ?_⟩
    · show s.outstart + (s.outlen + 1) ≤ bufsize
      omega
    · simp only [Nat.succ_pos, iff_true]
      split_ifs with first
      · rfl
      · exact h.enabled.mpr (by omega)

theorem Good.getChar (h : Good s) : Good s.getChar.2.2 := by
  unfold Console.getChar
  split_ifs
  · exact ⟨Nat.le_trans (Nat.sub_le _ _) h.inbound, h.outbound, h.start, h.enabled⟩
  · exact h

theorem putChar_in (s : Console α) (c : α) :
    (s.putChar c).2.inlen = s.inlen ∧ (s.putChar c).2.in_c = s.in_c := by
  unfold Console.putChar
  dsimp only
  split_ifs <;> exact ⟨rfl, rfl⟩

theorem Good.outEvent (h : Good s) (most : n ≤ s.outlen) : Good (s.outEvent n) := by
  unfold Console.outEvent
  dsimp only
  split_ifs with pending all
  · exact ⟨h.inbound, by show 0 + (s.outlen - n) ≤ _; omega, fun _ => rfl, by simp [all]⟩
  · refine ⟨h.inbound, ?_, fun none => absurd none all, ?_⟩
    · have := h.outbound
      show s.outstart + n + (s.outlen - n) ≤ bufsize
      omega
    · show s.outEnabled = true ↔ 0 < s.outlen - n
      rw [h.enabled]
      omega
  · exact h

/-- The device takes the first characters. -/
theorem queue_outEvent (most : n ≤ s.outlen) :
    s.queue = Fifo.slice s.out_c s.outstart n ++ (s.outEvent n).queue := by
  have split : Fifo.slice s.out_c s.outstart (n + (s.outlen - n)) = _ := Fifo.slice_append ..
  rw [Nat.add_sub_cancel' most] at split
  rw [Console.queue, split]
  refine congrArg (Fifo.slice s.out_c s.outstart n ++ ·) ?_
  unfold Console.outEvent
  dsimp only
  split_ifs with pending all
  · rw [Console.queue, all]
    rfl
  · rfl
  · obtain rfl | none : n = 0 ∨ s.outlen = 0 := by omega
    · rfl
    · obtain rfl : n = 0 := by omega
      rfl

/-! ### The echo -/

theorem getChar_stack (held : 0 < s.inlen) :
    s.getChar = (EBBRC.ok, some (s.in_c (s.inlen - 1)), { s with inlen := s.inlen - 1 }) ∧
      s.stack = s.in_c (s.inlen - 1) :: ({ s with inlen := s.inlen - 1 } : Console α).stack := by
  refine ⟨if_pos held, ?_⟩
  have last : Fifo.slice s.in_c 0 (s.inlen - 1 + 1) = _ := Fifo.slice_succ
  rw [Nat.sub_add_cancel held, Nat.zero_add] at last
  rw [Console.stack, last, List.reverse_append]
  rfl

theorem getChar_empty (empty : s.inlen = 0) : s.getChar = (EBBRC.retry, none, s) :=
  if_neg (Nat.not_lt.mpr (Nat.le_of_eq empty))

/-- The echo takes all characters, the last one first, and puts as many of them as there is
room for. -/
theorem echoFrom_eq (k : Nat) (len : s.inlen = k) :
    (s.echoFrom k).1 = s.stack.take s.room ∧ (s.echoFrom k).2.queue = s.queue ++ (s.echoFrom k).1 ∧
      (s.echoFrom k).2.inlen = 0 := by
  induction k generalizing s with
  | zero =>
      have empty : s.stack = [] := by rw [Console.stack, len]; rfl
      rw [empty, List.take_nil]
      exact ⟨rfl, (List.append_nil _).symm, len⟩
  | succ k ih =>
      obtain ⟨got, stack⟩ := getChar_stack (s := s) (by omega)
      let c := s.in_c (s.inlen - 1)
      let u : Console α := { s with inlen := s.inlen - 1 }
      have unfolded : s.echoFrom (k + 1) =
          (if (u.putChar c).1 = EBBRC.ok then c :: ((u.putChar c).2.echoFrom k).1
            else ((u.putChar c).2.echoFrom k).1, ((u.putChar c).2.echoFrom k).2) := by
        rw [Console.echoFrom, got]
      obtain ⟨inlen, in_c⟩ := putChar_in u c
      have same : (u.putChar c).2.stack = u.stack := by rw [Console.stack, inlen, in_c]; rfl
      have rest : u.inlen = k := by show s.inlen - 1 = k; omega
      obtain ⟨taken, queue, none⟩ := ih (s := (u.putChar c).2) (by rw [inlen, rest])
      rw [same] at taken
      rw [unfolded, stack]
      obtain full | room := Nat.eq_zero_or_pos s.room
      · -- Nothing more is accepted.
        have refused := putChar_refuses (s := u) (c := c) full
        rw [refused] at taken queue none ⊢
        change (u.echoFrom k).1 = u.stack.take s.room at taken
        rw [full, List.take_zero] at taken ⊢
        have refuse : ¬ EBBRC.retry = EBBRC.ok := by decide
        refine ⟨?_, ?_, none⟩
        · rw [if_neg refuse]
          exact taken
        · rw [if_neg refuse]
          exact queue
      · obtain ⟨ok, accepted, less⟩ := putChar_accepts (s := u) (c := c) room
        have one : s.room = (u.putChar c).2.room + 1 := less.symm
        rw [if_pos ok, one, List.take_succ_cons]
        refine ⟨congrArg (c :: ·) taken, ?_, none⟩
        rw [queue, accepted, List.append_assoc]
        rfl

theorem stack_read (xs : List α) : (s.read xs).stack = xs.reverse ++ s.stack := by
  rw [Console.stack, Console.stack, ← List.reverse_append]
  refine congrArg List.reverse ((Fifo.slice_append s.inlen xs.length).trans ?_)
  rw [Nat.zero_add]
  refine congrArg₂ (· ++ ·) (Fifo.slice_congr fun i _ small => if_neg (by omega)) ?_
  refine List.ext_getElem (by simp) fun i small small' => ?_
  simp [Fifo.slice, Console.read, small']

theorem Good.echoFrom (h : Good s) (k : Nat) : Good (s.echoFrom k).2 := by
  induction k generalizing s with
  | zero => exact h
  | succ k ih =>
      obtain empty | held := Nat.eq_zero_or_pos s.inlen
      · rw [Console.echoFrom, getChar_empty empty]
        exact h
      · have fewer := h.getChar
        have got := (getChar_stack held).1
        rw [got] at fewer
        rw [Console.echoFrom, got]
        exact ih (Good.putChar fewer)

theorem Good.inEvent {echo : Bool} {xs : List α} (h : Good s)
    (most : xs.length ≤ bufsize - s.inlen) : Good (s.inEvent echo xs).2 := by
  have filled : Good (if s.inlen < bufsize then s.read xs else s) := by
    split_ifs with room
    · refine ⟨?_, h.outbound, h.start, h.enabled⟩
      show s.inlen + xs.length ≤ bufsize
      omega
    · exact h
  cases echo
  · exact filled
  · exact filled.echoFrom _

theorem Good.step {echo : Bool} {a : Action α} (h : Good s) (moved : step echo s a = some t) :
    Good t := by
  cases a with
  | putChar c =>
      obtain rfl := Option.some.inj moved
      exact h.putChar
  | getChar =>
      obtain rfl := Option.some.inj moved
      exact h.getChar
  | inEvent xs =>
      obtain ⟨most, rfl⟩ := Machine.of_guard moved
      exact h.inEvent most
  | outEvent n =>
      obtain ⟨most, rfl⟩ := Machine.of_guard moved
      exact h.outEvent most

theorem reach_good {echo : Bool} (reached : (machine α echo).Reach s) : Good s := by
  induction reached with
  | init start =>
      obtain ⟨in_c, out_c, rfl⟩ := start
      exact ⟨Nat.zero_le _, Nat.zero_le _, fun _ => rfl, by simp [create]⟩
  | step _ _ moved ih => exact ih.step moved

/-- What an input event puts into the output. -/
theorem queue_inEvent (s : Console α) (echo : Bool) (xs : List α) :
    (s.inEvent echo xs).2.queue = s.queue ++ (s.inEvent echo xs).1 := by
  have filled : (if s.inlen < bufsize then s.read xs else s).queue = s.queue := by
    split_ifs <;> rfl
  cases echo
  · exact filled.trans (List.append_nil _).symm
  · have echoed := (echoFrom_eq (s := if s.inlen < bufsize then s.read xs else s) _ rfl).2.1
    rw [filled] at echoed
    exact echoed

/-- Each step is some steps of a first-in-first-out buffer. -/
theorem step_refines [DecidableEq α] {echo : Bool} {a : Action α} (moved : step echo s a = some t) :
    (Fifo.fifo α).exec s.queue (shows echo s a t) = some t.queue := by
  cases a with
  | putChar c =>
      obtain rfl := Option.some.inj moved
      rw [shows]
      obtain full | room := Nat.eq_zero_or_pos s.room
      · rw [putChar_refuses full]
        rfl
      · obtain ⟨ok, accepted, _⟩ := putChar_accepts (c := c) room
        rw [if_pos ok, accepted]
        exact Fifo.exec_puts s.queue [c]
  | getChar =>
      obtain rfl := Option.some.inj moved
      unfold Console.getChar
      split_ifs <;> rfl
  | inEvent xs =>
      obtain ⟨_, rfl⟩ := Machine.of_guard moved
      rw [queue_inEvent]
      exact Fifo.exec_puts s.queue _
  | outEvent n =>
      obtain ⟨most, rfl⟩ := Machine.of_guard moved
      refine Machine.exec_one.mpr ?_
      rw [queue_outEvent most]
      exact Fifo.step_take ..

/-- With the echo, the input is empty between events. -/
theorem reach_echoed (reached : (machine α true).Reach s) : s.inlen = 0 := by
  induction reached with
  | init start =>
      obtain ⟨in_c, out_c, rfl⟩ := start
      rfl
  | @step s _ a _ _ moved ih =>
      cases a with
      | putChar c =>
          obtain rfl := Option.some.inj moved
          exact (putChar_in s c).1.trans ih
      | getChar =>
          obtain rfl := Option.some.inj moved
          rw [getChar_empty ih]
          exact ih
      | inEvent xs =>
          obtain ⟨_, rfl⟩ := Machine.of_guard moved
          exact (echoFrom_eq _ rfl).2.2
      | outEvent n =>
          obtain ⟨_, rfl⟩ := Machine.of_guard moved
          refine Eq.trans ?_ ih
          unfold Console.outEvent
          dsimp only
          split_ifs <;> rfl

end

/-- The output device takes the characters that `putChar` has accepted, in the same order: none is
lost and none comes twice, however many characters it takes at a time. -/
theorem console_fifo {α : Type*} [DecidableEq α] {echo : Bool} {s t : Console α}
    {as : List (Action α)} (start : (machine α echo).init s)
    (run : (machine α echo).exec s as = some t) :
    (Fifo.fifo α).exec [] ((machine α echo).events (shows echo) s as) = some t.queue := by
  have refines : ∀ s q a t, (machine α echo).Reach s → s.queue = q → True →
      (machine α echo).step s a = some t →
      ∃ r, (Fifo.fifo α).exec q (shows echo s a t) = some r ∧ t.queue = r := by
    rintro s _ a t _ rfl - moved
    exact ⟨t.queue, step_refines moved, rfl⟩
  have empty : s.queue = [] := by
    obtain ⟨in_c, out_c, rfl⟩ := start
    rfl
  obtain ⟨q, answered, rfl⟩ := Machine.execVia_refines refines (.init start) empty run
  exact answered

/-- A character of a client and two of the input, of which the device takes two. -/
def session : List (Action Nat) := [.putChar 1, .inEvent [2, 3], .outEvent 2]

def fresh : Console Nat := create (fun _ => 0) fun _ => 0

def echoed : Console Nat := ((machine Nat true).exec fresh session).get (by decide)

theorem echoed_run : (machine Nat true).exec fresh session = some echoed :=
  (Option.some_get _).symm

theorem echoed_reached : (machine Nat true).Reach echoed :=
  Machine.reachVia_of_execVia ⟨_, _, rfl⟩ echoed_run

theorem echoed_fifo :
    (Fifo.fifo Nat).exec [] ((machine Nat true).events (shows true) fresh session) =
      some echoed.queue :=
  console_fifo ⟨_, _, rfl⟩ echoed_run

/-- The echo of a console puts what was read in reverse order, and only as much of it as there is
room for: the rest is lost. The input is empty again. -/
theorem console_echo {α : Type*} {s t : Console α} {xs : List α}
    (reached : (machine α true).Reach s) (event : step true s (.inEvent xs) = some t) :
    t.queue = s.queue ++ xs.reverse.take s.room ∧ t.inlen = 0 := by
  have none := reach_echoed reached
  obtain ⟨_, rfl⟩ := Machine.of_guard event
  have room : s.inlen < bufsize := by
    rw [none]
    decide
  have filled : (if s.inlen < bufsize then s.read xs else s) = s.read xs := if_pos room
  have stack : (s.read xs).stack = xs.reverse := by
    rw [stack_read, show s.stack = [] by rw [Console.stack, none]; rfl, List.append_nil]
  obtain ⟨taken, _, empty⟩ := echoFrom_eq (s := s.read xs) _ rfl
  rw [stack] at taken
  refine ⟨?_, ?_⟩
  · rw [queue_inEvent, Console.inEvent, filled]
    exact congrArg (s.queue ++ ·) taken
  · rw [Console.inEvent, filled]
    exact empty

def again : Console Nat := (step true echoed (.inEvent [4, 5])).get (by decide)

theorem again_echo :
    again.queue = echoed.queue ++ [4, 5].reverse.take echoed.room ∧ again.inlen = 0 :=
  console_echo echoed_reached (Option.some_get _).symm

/-- In every reachable state both buffers are within their bounds, the output event is enabled
whenever there is something to write, and `putChar` refuses a character only when the end of the
buffer is reached, which is never the case when everything has been written. -/
theorem console_bounds {α : Type*} {echo : Bool} {s : Console α}
    (reached : (machine α echo).Reach s) :
    s.outstart + s.outlen ≤ bufsize ∧ s.inlen ≤ bufsize ∧ (s.outEnabled = true ↔ s.queue ≠ []) ∧
    (∀ c, (s.putChar c).1 = EBBRC.retry ↔ s.outstart + s.outlen = bufsize) ∧
    (s.queue = [] → s.room = bufsize) := by
  have h := reach_good reached
  have empty : s.queue = [] ↔ s.outlen = 0 := by
    rw [← List.length_eq_zero_iff, Console.queue, Fifo.length_slice]
  refine ⟨h.outbound, h.inbound, ?_, fun c => ⟨fun refused => ?_, fun full => ?_⟩, fun none => ?_⟩
  · rw [h.enabled, Ne, empty, Nat.pos_iff_ne_zero]
  · by_contra room
    have ok := (putChar_accepts (s := s) (c := c) (Nat.sub_pos_of_lt
      (Nat.lt_of_le_of_ne h.outbound room))).1
    rw [refused] at ok
    exact absurd ok (by decide)
  · rw [putChar_refuses (show bufsize - (s.outstart + s.outlen) = 0 by omega)]
  · have none := empty.mp none
    rw [Console.room, none, h.start none]
    rfl

theorem echoed_bounds :
    echoed.outstart + echoed.outlen ≤ bufsize ∧ echoed.inlen ≤ bufsize ∧
    (echoed.outEnabled = true ↔ echoed.queue ≠ []) ∧
    (∀ c, (echoed.putChar c).1 = EBBRC.retry ↔ echoed.outstart + echoed.outlen = bufsize) ∧
    (echoed.queue = [] → echoed.room = bufsize) :=
  console_bounds echoed_reached

end EBBLib.ConsTst
