import EBBLib.Library.Fifo
import Mathlib.Data.Fintype.Basic
import Mathlib.Tactic.Ring

/-!
# The mailbox of the ppc32 console

`mailbox_putc` collects characters in a buffer. A full buffer or a newline is copied into the
mailbox, and the core raises an alert and waits until the reader of the mailbox has set the
upper bit of the command. The reader is not part of the kernel: it takes the data and then
acknowledges. `ReaderAnswers` is what the results assume of it. Each access to the mailbox is
one step.
-/

namespace EBBLib.Mailbox

/-- `BGP_MBOX_SIZE`. -/
def size : Nat := 0xf8

def newline : BitVec 8 := 0x0a

/-- `0x8000`. -/
def ack : BitVec 16 := 0x8000

/-- Where the core is. -/
inductive Pc where
  /-- Not in `mailbox_putc`. -/
  | idle
  | copying
  | settingLen
  | settingCommand
  | raising
  | polling
  | clearing
deriving DecidableEq, Repr

/-- Where the reader of the mailbox is. -/
inductive Reader where
  | idle
  /-- Has taken the data. -/
  | taken
deriving DecidableEq, Repr

/-- `bgp_mbox_buffer` and `bgp_mbox_buffer_len`, the fields of the mailbox that are used, the
alert, and the two parties. -/
structure State where
  buffer : Nat → BitVec 8
  buffer_len : Nat
  data : Nat → BitVec 8
  len : Nat
  command : BitVec 16
  alert : Bool
  pc : Pc
  reader : Reader

inductive Action where
  /-- `mailbox_putc`, up to its test. -/
  | putc (c : BitVec 8)
  | copy
  | setLen
  | setCommand
  | raise
  /-- A test of the command. -/
  | poll
  | clear
  /-- The reader takes the data. -/
  | take
  | acknowledge
deriving DecidableEq, Repr

/-- `command & 0x8000`. -/
def Acked (command : BitVec 16) : Prop := command &&& ack ≠ 0

instance (command : BitVec 16) : Decidable (Acked command) := inferInstanceAs (Decidable (_ ≠ _))

namespace State

variable (s : State)

def step : Action → Option State
  | .putc c =>
      if s.pc = .idle then
        some { s with
          buffer := Function.update s.buffer s.buffer_len c
          buffer_len := s.buffer_len + 1
          pc := if s.buffer_len + 1 ≥ size ∨ c = newline then .copying else .idle }
      else none
  | .copy =>
      if s.pc = .copying then
        some { s with
          data := fun i => if i < s.buffer_len then s.buffer i else s.data i
          pc := .settingLen }
      else none
  | .setLen =>
      if s.pc = .settingLen then
        some { s with len := s.buffer_len % 2 ^ 16, pc := .settingCommand }
      else none
  | .setCommand =>
      if s.pc = .settingCommand then some { s with command := 2, pc := .raising } else none
  | .raise => if s.pc = .raising then some { s with alert := true, pc := .polling } else none
  | .poll =>
      if s.pc = .polling then some (if Acked s.command then { s with pc := .clearing } else s)
      else none
  | .clear =>
      if s.pc = .clearing then some { s with alert := false, buffer_len := 0, pc := .idle }
      else none
  | .take =>
      if s.reader = .idle then some { s with reader := .taken } else none
  | .acknowledge =>
      if s.reader = .taken then some { s with command := s.command ||| ack, reader := .idle }
      else none

/-- The reader has the data, and the core has not yet found out. -/
def Delivered : Prop :=
  s.reader = .taken ∨ Acked s.command ∧ (s.pc = .polling ∨ s.pc = .clearing)

instance : Decidable s.Delivered := inferInstanceAs (Decidable (_ ∨ _ ∧ _))

/-- The characters that the reader has not taken. -/
def queue : List (BitVec 8) := if s.Delivered then [] else Fifo.slice s.buffer 0 s.buffer_len

end State

/-- Nothing is written yet. -/
def boot (buffer data : Nat → BitVec 8) (len : Nat) (command : BitVec 16) : State :=
  { buffer, buffer_len := 0, data, len, command, alert := false, pc := .idle, reader := .idle }

def machine : Machine State Action where
  init s := ∃ buffer data len command, s = boot buffer data len command
  step := State.step

/-- The reader takes data only where an alert is raised whose command is not acknowledged yet. -/
def ReaderAnswers (s : State) : Action → Prop
  | .take => s.alert ∧ ¬ Acked s.command
  | _ => True

instance (s : State) : (a : Action) → Decidable (ReaderAnswers s a)
  | .take => inferInstanceAs (Decidable (_ ∧ _))
  | .putc _ | .copy | .setLen | .setCommand | .raise | .poll | .clear | .acknowledge =>
      .isTrue trivial

/-- A character that is written, and the data that the reader takes. -/
def shows (s : State) : Action → State → List (Fifo.Event (BitVec 8))
  | .putc c, _ => [.put c]
  | .take, _ => [.take (Fifo.slice s.data 0 s.len)]
  | _, _ => []

/-! ### The invariant -/

section

variable {s t : State} {a : Action}

/-- The mailbox has what is in the buffer. -/
def Copied (s : State) : Prop := ∀ i < s.buffer_len, s.data i = s.buffer i

structure Good (s : State) : Prop where
  small : s.buffer_len ≤ size
  /-- The buffer is handed over as soon as it is full or ends a line. -/
  partly : s.pc = .idle → s.buffer_len < size ∧ ∀ i < s.buffer_len, s.buffer i ≠ newline
  full : s.pc ≠ .idle → 0 < s.buffer_len ∧
    (s.buffer_len = size ∨ s.buffer (s.buffer_len - 1) = newline) ∧
    ∀ i < s.buffer_len - 1, s.buffer i ≠ newline
  copied : s.pc ≠ .idle → s.pc ≠ .copying → Copied s
  len : s.pc ≠ .idle → s.pc ≠ .copying → s.pc ≠ .settingLen → s.len = s.buffer_len
  command : s.pc = .raising → ¬ Acked s.command
  alert : s.alert = true ↔ s.pc = .polling ∨ s.pc = .clearing
  /-- The reader has taken data that it has not acknowledged. -/
  taken : s.reader = .taken → s.pc = .polling ∧ ¬ Acked s.command
  acked : s.pc = .clearing → Acked s.command

theorem size_pos : 0 < size := by decide

theorem boot_good (buffer data : Nat → BitVec 8) (len : Nat) (command : BitVec 16) :
    Good (boot buffer data len command) := by
  refine ⟨Nat.zero_le _, fun _ => ⟨size_pos, fun i small => ?_⟩, ?_, ?_, ?_, ?_, ?_, ?_, ?_⟩
  · cases small
  all_goals simp [boot]

theorem acked_or (command : BitVec 16) : Acked (command ||| ack) := by
  have top : ((command ||| ack) &&& ack).getLsbD 15 = true := by
    simp [show ack.getLsbD 15 = true from rfl]
  intro zero
  rw [zero] at top
  cases top

/-- The reader has data only while the core polls. -/
theorem Good.not_taken (h : Good s) (other : s.pc ≠ .polling) : s.reader ≠ .taken :=
  fun taken => other (h.taken taken).1

/-- An alert that is not acknowledged is one that the core polls for. -/
theorem Good.polling (h : Good s) (alert : s.alert = true) (fresh : ¬ Acked s.command) :
    s.pc = .polling :=
  (h.alert.mp alert).resolve_right fun clearing => fresh (h.acked clearing)

/-- A character is stored behind the others, and a full buffer or a newline starts the copy. -/
theorem Good.putc {c : BitVec 8} (h : Good s) (idle : s.pc = .idle) :
    Good { s with
      buffer := Function.update s.buffer s.buffer_len c
      buffer_len := s.buffer_len + 1
      pc := if s.buffer_len + 1 ≥ size ∨ c = newline then .copying else .idle } := by
  obtain ⟨room, lines⟩ := h.partly idle
  have notTaken : s.reader ≠ .taken := h.not_taken (by simp [idle])
  have quiet : ¬ s.alert = true := by simp [h.alert, idle]
  have stored : Function.update s.buffer s.buffer_len c s.buffer_len = c := Function.update_self ..
  have before : ∀ i < s.buffer_len, Function.update s.buffer s.buffer_len c i ≠ newline := by
    intro i small
    rw [Function.update_of_ne (Nat.ne_of_lt small)]
    exact lines i small
  split_ifs with hand
  · refine ⟨room, by simp, fun _ => ⟨Nat.succ_pos _, ?_, before⟩, by simp, by simp, by simp,
      by simp [quiet], fun taken => absurd taken notTaken, by simp⟩
    exact hand.imp (fun full => Nat.le_antisymm room full) fun line => stored.trans line
  · obtain ⟨more, other⟩ := not_or.mp hand
    refine ⟨room, fun _ => ⟨Nat.lt_of_not_le more, fun i small => ?_⟩, by simp, by simp, by simp,
      by simp, by simp [quiet], fun taken => absurd taken notTaken, by simp⟩
    obtain earlier | rfl := Nat.lt_succ_iff_lt_or_eq.mp small
    · exact before i earlier
    · exact fun line => other (stored.symm.trans line)

theorem Good.step (h : Good s) (answers : ReaderAnswers s a) (moved : s.step a = some t) :
    Good t := by
  cases a with
  | putc c =>
      obtain ⟨idle, rfl⟩ := Machine.of_guard moved
      exact h.putc idle
  | copy =>
      obtain ⟨at_, rfl⟩ := Machine.of_guard moved
      have full := h.full (by simp [at_])
      refine ⟨h.small, by simp, fun _ => full, fun _ _ i small => if_pos small, by simp, by simp,
        ?_, fun taken => ?_, by simp⟩
      · simpa [at_] using h.alert
      · exact absurd taken (h.not_taken (by simp [at_]))
  | setLen =>
      obtain ⟨at_, rfl⟩ := Machine.of_guard moved
      have full := h.full (by simp [at_])
      have copied := h.copied (by simp [at_]) (by simp [at_])
      refine ⟨h.small, by simp, fun _ => full, fun _ _ => copied, fun _ _ _ => ?_, by simp,
        ?_, fun taken => ?_, by simp⟩
      · exact Nat.mod_eq_of_lt (Nat.lt_of_le_of_lt h.small (by decide))
      · simpa [at_] using h.alert
      · exact absurd taken (h.not_taken (by simp [at_]))
  | setCommand =>
      obtain ⟨at_, rfl⟩ := Machine.of_guard moved
      have full := h.full (by simp [at_])
      have copied := h.copied (by simp [at_]) (by simp [at_])
      have len := h.len (by simp [at_]) (by simp [at_]) (by simp [at_])
      refine ⟨h.small, by simp, fun _ => full, fun _ _ => copied, fun _ _ _ => len, fun _ => ?_,
        ?_, fun taken => ?_, by simp⟩
      · simp [Acked, ack]
      · simpa [at_] using h.alert
      · exact absurd taken (h.not_taken (by simp [at_]))
  | raise =>
      obtain ⟨at_, rfl⟩ := Machine.of_guard moved
      have full := h.full (by simp [at_])
      have copied := h.copied (by simp [at_]) (by simp [at_])
      have len := h.len (by simp [at_]) (by simp [at_]) (by simp [at_])
      have command := h.command at_
      exact ⟨h.small, by simp, fun _ => full, fun _ _ => copied, fun _ _ _ => len, by simp,
        by simp, fun _ => ⟨rfl, command⟩, by simp⟩
  | poll =>
      obtain ⟨at_, rfl⟩ := Machine.of_guard moved
      split_ifs with acked
      · have full := h.full (by simp [at_])
        have copied := h.copied (by simp [at_]) (by simp [at_])
        have len := h.len (by simp [at_]) (by simp [at_]) (by simp [at_])
        refine ⟨h.small, by simp, fun _ => full, fun _ _ => copied, fun _ _ _ => len, by simp,
          ?_, fun taken => absurd acked (h.taken taken).2, fun _ => acked⟩
        simpa [at_] using h.alert
      · exact h
  | clear =>
      obtain ⟨at_, rfl⟩ := Machine.of_guard moved
      refine ⟨Nat.zero_le _, fun _ => ⟨size_pos, by simp⟩, by simp, by simp, by simp, by simp,
        by simp, fun taken => absurd taken (h.not_taken (by simp [at_])), by simp⟩
  | take =>
      obtain ⟨_, rfl⟩ := Machine.of_guard moved
      obtain ⟨alert, fresh⟩ := answers
      exact ⟨h.small, h.partly, h.full, h.copied, h.len, h.command, h.alert,
        fun _ => ⟨h.polling alert fresh, fresh⟩, h.acked⟩
  | acknowledge =>
      obtain ⟨taken, rfl⟩ := Machine.of_guard moved
      have at_ := (h.taken taken).1
      refine ⟨h.small, h.partly, h.full, h.copied, h.len, by simp [at_], h.alert, by simp,
        fun _ => acked_or _⟩

theorem reach_good (reached : machine.ReachVia ReaderAnswers s) : Good s := by
  induction reached with
  | init start =>
      obtain ⟨buffer, data, len, command, rfl⟩ := start
      exact boot_good buffer data len command
  | step _ answers moved ih => exact ih.step answers moved

/-! ### What is written and what is taken -/

theorem queue_delivered (delivered : s.Delivered) : s.queue = [] := if_pos delivered

theorem queue_waiting (waiting : ¬ s.Delivered) :
    s.queue = Fifo.slice s.buffer 0 s.buffer_len := if_neg waiting

/-- Before the alert, nothing is delivered. -/
theorem Good.waiting (h : Good s) (polling : s.pc ≠ .polling) (clearing : s.pc ≠ .clearing) :
    ¬ s.Delivered := by
  rintro (taken | ⟨_, at_ | at_⟩)
  · exact h.not_taken polling taken
  · exact polling at_
  · exact clearing at_

/-- Each step is one of a first-in-first-out buffer, or none. -/
theorem Good.refines (h : Good s) (answers : ReaderAnswers s a) (moved : s.step a = some t) :
    (Fifo.fifo (BitVec 8)).exec s.queue (shows s a t) = some t.queue := by
  have after := h.step answers moved
  cases a with
  | putc c =>
      obtain ⟨at_, rfl⟩ := Machine.of_guard moved
      refine Machine.exec_one.mpr (congrArg some ?_)
      have pc : ∀ p, p = Pc.polling ∨ p = Pc.clearing →
          (if s.buffer_len + 1 ≥ size ∨ c = newline then Pc.copying else Pc.idle) ≠ p := by
        rintro p (rfl | rfl) <;> split_ifs <;> decide
      rw [queue_waiting (h.waiting (by simp [at_]) (by simp [at_])),
        queue_waiting (after.waiting (pc _ (.inl rfl)) (pc _ (.inr rfl)))]
      have push : Fifo.slice (Function.update s.buffer (0 + s.buffer_len) c) 0 (s.buffer_len + 1) =
          Fifo.slice s.buffer 0 s.buffer_len ++ [c] := Fifo.slice_push
      rw [Nat.zero_add] at push
      exact push.symm
  | copy | setLen | setCommand =>
      obtain ⟨at_, rfl⟩ := Machine.of_guard moved
      refine congrArg some ?_
      rw [queue_waiting (h.waiting (by simp [at_]) (by simp [at_])),
        queue_waiting (after.waiting (by simp) (by simp))]
  | raise =>
      obtain ⟨at_, rfl⟩ := Machine.of_guard moved
      refine congrArg some ?_
      rw [queue_waiting (h.waiting (by simp [at_]) (by simp [at_])), queue_waiting]
      rintro (taken | ⟨acked, _⟩)
      · exact h.not_taken (by simp [at_]) taken
      · exact h.command at_ acked
  | poll =>
      obtain ⟨at_, rfl⟩ := Machine.of_guard moved
      split_ifs with acked
      · have there := queue_delivered (s := { s with pc := .clearing }) (.inr ⟨acked, .inr rfl⟩)
        exact congrArg some ((queue_delivered (.inr ⟨acked, .inl at_⟩)).trans there.symm)
      · rfl
  | clear =>
      obtain ⟨at_, rfl⟩ := Machine.of_guard moved
      refine congrArg some ?_
      rw [queue_delivered (.inr ⟨h.acked at_, .inr at_⟩),
        queue_waiting (after.waiting (by simp) (by simp))]
      rfl
  | take =>
      obtain ⟨idle, rfl⟩ := Machine.of_guard moved
      obtain ⟨alert, fresh⟩ := answers
      have at_ := h.polling alert fresh
      have same : Fifo.slice s.data 0 s.len = s.queue := by
        rw [queue_waiting (by simp [State.Delivered, idle, fresh]),
          h.len (by simp [at_]) (by simp [at_]) (by simp [at_])]
        refine Fifo.slice_congr fun i _ small => ?_
        rw [Nat.zero_add] at small
        exact h.copied (by simp [at_]) (by simp [at_]) i small
      refine Machine.exec_one.mpr ?_
      rw [same, queue_delivered (s := { s with reader := .taken }) (.inl rfl)]
      have all : Fifo.step (s.queue ++ []) (.take s.queue) = some [] := Fifo.step_take s.queue []
      rwa [List.append_nil] at all
  | acknowledge =>
      obtain ⟨taken, rfl⟩ := Machine.of_guard moved
      have there := queue_delivered
        (s := { s with command := s.command ||| ack, reader := .idle })
        (.inr ⟨acked_or _, .inl (h.taken taken).1⟩)
      exact congrArg some ((queue_delivered (.inl taken)).trans there.symm)

/-! ### Progress -/

/-- The steps that the two parties still have to make until `mailbox_putc` returns. -/
def State.work (s : State) : Nat :=
  match s.pc with
  | .idle => 0
  | .clearing => 1
  | .polling => if Acked s.command then 2 else if s.reader = .taken then 3 else 4
  | .raising => 5
  | .settingCommand => 6
  | .settingLen => 7
  | .copying => 8

/-- While the core is in `mailbox_putc`, it or the reader has a step that brings its return
nearer. -/
theorem Good.goes_on (h : Good s) (inside : s.pc ≠ .idle) :
    ∃ a t, ReaderAnswers s a ∧ s.step a = some t ∧ t.work < s.work := by
  cases at_ : s.pc with
  | idle => exact absurd at_ inside
  | copying => exact ⟨.copy, _, trivial, if_pos at_, by simp [State.work, at_]⟩
  | settingLen => exact ⟨.setLen, _, trivial, if_pos at_, by simp [State.work, at_]⟩
  | settingCommand => exact ⟨.setCommand, _, trivial, if_pos at_, by simp [State.work, at_]⟩
  | raising =>
      refine ⟨.raise, _, trivial, if_pos at_, ?_⟩
      simp only [State.work, at_]
      split_ifs <;> omega
  | clearing => exact ⟨.clear, _, trivial, if_pos at_, by simp [State.work, at_]⟩
  | polling =>
      by_cases acked : Acked s.command
      · exact ⟨.poll, _, trivial, if_pos at_, by simp [State.work, at_, acked]⟩
      cases reader : s.reader with
      | idle =>
          have alert : s.alert = true := h.alert.mpr (.inl at_)
          refine ⟨.take, _, ⟨alert, acked⟩, if_pos reader, ?_⟩
          simp [State.work, at_, acked, reader]
      | taken =>
          refine ⟨.acknowledge, _, trivial, if_pos reader, ?_⟩
          simp [State.work, at_, acked, acked_or, reader]

/-- A step changes nothing, or brings the return nearer, or is a new character. -/
theorem work_step (h : Good s) (answers : ReaderAnswers s a) (moved : s.step a = some t) :
    t = s ∨ t.work < s.work ∨ ∃ c, a = .putc c := by
  cases a with
  | putc c => exact .inr (.inr ⟨c, rfl⟩)
  | copy | setLen | setCommand | clear =>
      obtain ⟨at_, rfl⟩ := Machine.of_guard moved
      exact .inr (.inl (by simp [State.work, at_]))
  | raise =>
      obtain ⟨at_, rfl⟩ := Machine.of_guard moved
      refine .inr (.inl ?_)
      simp only [State.work, at_]
      split_ifs <;> omega
  | poll =>
      obtain ⟨at_, rfl⟩ := Machine.of_guard moved
      split_ifs with acked
      · exact .inr (.inl (by simp [State.work, at_, acked]))
      · exact .inl rfl
  | take =>
      obtain ⟨idle, rfl⟩ := Machine.of_guard moved
      obtain ⟨alert, fresh⟩ := answers
      have at_ := h.polling alert fresh
      exact .inr (.inl (by simp [State.work, at_, fresh, idle]))
  | acknowledge =>
      obtain ⟨taken, rfl⟩ := Machine.of_guard moved
      obtain ⟨at_, fresh⟩ := h.taken taken
      exact .inr (.inl (by simp [State.work, at_, fresh, acked_or, taken]))

end

/-- The characters that the reader takes are those that are written, in the same order: none is
lost and none comes twice. -/
theorem mailbox_fifo {s t : State} {as : List Action} (start : machine.init s)
    (run : machine.execVia ReaderAnswers s as = some t) :
    (Fifo.fifo (BitVec 8)).exec [] (machine.events shows s as) = some t.queue := by
  have refines : ∀ s q a t, machine.ReachVia ReaderAnswers s → s.queue = q → ReaderAnswers s a →
      machine.step s a = some t →
        ∃ r, (Fifo.fifo (BitVec 8)).exec q (shows s a t) = some r ∧ t.queue = r := by
    rintro s _ a t reached rfl answers moved
    exact ⟨t.queue, (reach_good reached).refines answers moved, rfl⟩
  have empty : s.queue = [] := by
    obtain ⟨buffer, data, len, command, rfl⟩ := start
    rw [State.queue]
    split_ifs <;> rfl
  obtain ⟨q, answered, rfl⟩ := Machine.execVia_refines refines (.init start) empty run
  exact answered

/-- A line of one character, and the first character of the next one. -/
def line : List Action :=
  [.putc 0x61, .putc newline, .copy, .setLen, .setCommand, .raise, .poll, .take, .acknowledge,
    .poll, .clear, .putc 0x62]

def written : State :=
  (machine.execVia ReaderAnswers (boot (fun _ => 0) (fun _ => 0) 0 0) line).get
    (by decide +kernel)

theorem written_run :
    machine.execVia ReaderAnswers (boot (fun _ => 0) (fun _ => 0) 0 0) line = some written :=
  (Option.some_get _).symm

theorem written_fifo :
    (Fifo.fifo (BitVec 8)).exec []
      (machine.events shows (boot (fun _ => 0) (fun _ => 0) 0 0) line) = some written.queue :=
  mailbox_fifo ⟨_, _, _, _, rfl⟩ written_run

/-- Whenever no `mailbox_putc` is in progress, the reader has taken everything up to the last
newline, and fewer than `BGP_MBOX_SIZE` characters are left. While it is in progress, it comes
to its end: some step brings the end nearer, and none brings it further away. -/
theorem mailbox_lines {s : State} (reached : machine.ReachVia ReaderAnswers s) :
    (s.pc = .idle → newline ∉ s.queue ∧ s.queue.length < size) ∧
    (s.pc ≠ .idle → ∃ a t, ReaderAnswers s a ∧ s.step a = some t ∧ t.work < s.work) ∧
    ∀ a t, ReaderAnswers s a → s.step a = some t →
      t = s ∨ t.work < s.work ∨ ∃ c, a = .putc c := by
  have h := reach_good reached
  refine ⟨fun idle => ?_, h.goes_on, fun a t answers => work_step h answers⟩
  obtain ⟨room, lines⟩ := h.partly idle
  rw [queue_waiting (h.waiting (by simp [idle]) (by simp [idle])), Fifo.length_slice]
  refine ⟨fun member => ?_, room⟩
  obtain ⟨i, small, line⟩ := List.mem_map.mp member
  have small := (List.mem_range'_1.mp small).2
  exact lines i (by omega) line

theorem written_lines :
    (written.pc = .idle → newline ∉ written.queue ∧ written.queue.length < size) ∧
    (written.pc ≠ .idle →
      ∃ a t, ReaderAnswers written a ∧ written.step a = some t ∧ t.work < written.work) ∧
    ∀ a t, ReaderAnswers written a → written.step a = some t →
      t = written ∨ t.work < written.work ∨ ∃ c, a = .putc c :=
  mailbox_lines (Machine.reachVia_of_execVia ⟨_, _, _, _, rfl⟩ written_run)

end EBBLib.Mailbox
