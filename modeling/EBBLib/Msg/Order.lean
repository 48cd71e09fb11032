import EBBLib.Msg.ExactlyOnce

/-!
# The order of messages

`MsgMgrPrim_enqueueMsg` pushes at the head of the queue, where `MsgMgrPrim_dequeueMsgHead`
takes. A message overtakes the messages that are still in the queue when it is pushed.
-/

namespace EBBLib.Delivery

open Chain MsgMgrPrim Partition

namespace State

variable (s : State) (c : Nat)

/-- The tickets of the messages that core `c` has taken from its queue, the first one first. -/
def dequeued : List Nat := ((s.taken c).map Prod.fst).reverse

/-- The tickets of the messages whose method core `c` has called, the first one first. -/
def invocations : List Nat :=
  ((s.handled c).map Prod.fst).reverse ++
    match s.handling c with
    | .handling msg _ => [s.ticket msg]
    | _ => []

/-- The messages for core `c` in the order in which it takes them if no other one comes. -/
def line (queue : List Nat) : List Nat := s.dequeued c ++ (queue.map (s.message c)).map Prod.fst

end State

section

variable {s t u : State} {c d : Nat} {content content' : Place → List Nat}

/-- A method is called for a message after the message is dequeued, before the next one is. -/
theorem invocations_prefix : ∃ rest, s.dequeued d = s.invocations d ++ rest := by
  rw [State.dequeued, State.invocations, State.taken, State.current]
  cases s.handling d with
  | dequeued msg => exact ⟨[s.ticket msg], by simp [State.message]⟩
  | outside | draining | handling | freeing | pushing => exact ⟨[], by simp⟩

/-- A message that is pushed comes behind those that are dequeued, and the others keep their
order. -/
theorem Turn.sublist {queue queue' : List Nat} (turn : Turn s t d queue queue') :
    (s.line d queue).Sublist (t.line d queue') := by
  rw [State.line, State.line, State.dequeued, State.dequeued]
  cases turn with
  | same queue taken sent =>
      rw [queue, taken]
  | push ticket call loc queue taken sent =>
      rw [queue, taken, List.map_cons]
      exact (List.sublist_cons_self ..).append_left _
  | pop m queue taken sent =>
      rw [queue, taken, List.map_cons, List.map_cons, List.reverse_cons, List.append_assoc]
      rfl

theorem Correct.line_perm (h : Correct s content) :
    (s.line d (content (.queue d))).Perm ((s.sentTo d).map Prod.fst) := by
  have messages := (h.delivered d).map Prod.fst
  rw [messages_eq, List.map_append] at messages
  exact ((List.reverse_perm _).append_right _).trans (List.perm_append_comm.trans messages)

theorem Correct.line_nodup (h : Correct s content) : (s.line d (content (.queue d))).Nodup :=
  h.line_perm.nodup_iff.mpr h.tickets.nodup_sentTo

/-- Two elements are in order in a part of a list when the second one is in that part. -/
theorem sublist_of_append {a b : Nat} {xs ys : List Nat} (pair : [a, b].Sublist (xs ++ ys))
    (nodup : (xs ++ ys).Nodup) (mem : b ∈ xs) : [a, b].Sublist xs := by
  obtain ⟨front, back, split, left, right⟩ := List.sublist_append_iff.mp pair
  rcases List.eq_nil_or_concat back with rfl | ⟨init, last, rfl⟩
  · rw [split, List.append_nil]
    exact left
  · have same : b = last := by
      have ends := congrArg List.getLast? split
      rw [List.concat_eq_append, ← List.append_assoc, List.getLast?_concat] at ends
      exact Option.some.inj ends
    have there : b ∈ ys := right.subset (by simp [same])
    exact absurd rfl ((List.nodup_append.mp nodup).2.2 b mem b there)

/-- Messages that are in line are handled in this order, whatever comes. -/
theorem Correct.invocations {as : List (Nat × Action)} {a b : Nat} (h : Correct s content)
    (pair : [a, b].Sublist (s.line d (content (.queue d)))) (later : machine.exec s as = some t)
    (invoked : b ∈ t.invocations d) : [a, b].Sublist (t.invocations d) := by
  have kept : ∃ content, Correct t content ∧ [a, b].Sublist (t.line d (content (.queue d))) := by
    refine Machine.execVia_preserves (I := fun s => ∃ content, Correct s content ∧
      [a, b].Sublist (s.line d (content (.queue d)))) later ⟨content, h, pair⟩ ?_
    rintro s ⟨c, act⟩ t ⟨content, h, pair⟩ _ moved
    obtain ⟨content', h', turns⟩ := h.step moved
    exact ⟨content', h', pair.trans (turns d).sublist⟩
  obtain ⟨content', h', pair⟩ := kept
  have nodup : (t.line d (content' (.queue d))).Nodup := h'.line_nodup
  obtain ⟨rest, split⟩ := invocations_prefix (s := t) (d := d)
  rw [State.line, split, List.append_assoc] at pair nodup
  exact sublist_of_append pair nodup invoked

theorem Correct.enqueueMsg {ticket target msg : Nat} {call : Call} (h : Correct s content)
    (at_ : s.sending c = .filled ticket call target msg)
    (moved : s.step c .enqueueMsg = some t) : ∃ content', Correct t content' ∧
      t.line call.loc (content' (.queue call.loc)) =
        s.dequeued call.loc ++
          ticket :: ((content (.queue call.loc)).map (s.message call.loc)).map Prod.fst := by
  obtain ⟨content', h', turns⟩ := h.step moved
  have sent : t.sent = (ticket, call) :: s.sent := by
    simp only [State.step, at_, Option.some.injEq] at moved
    exact moved ▸ rfl
  have more : t.sentTo call.loc = (ticket, some call) :: s.sentTo call.loc := by
    rw [State.sentTo, sent, List.filter_cons_of_pos (by simp)]
    rfl
  refine ⟨content', h', ?_⟩
  cases turns call.loc with
  | same _ _ same | pop _ _ _ same => exact absurd (more.symm.trans same) (List.cons_ne_self _ _)
  | push ticket' call' _ queue taken sent' =>
      rw [sent, List.cons.injEq, Prod.mk.injEq] at sent'
      rw [State.line, State.dequeued, State.dequeued, taken, queue, sent'.1.1]
      rfl

/-- A message that was pushed earlier is handled first if the core has dequeued it when the next
one is pushed, and last if it is still in the queue then. -/
theorem order {k₁ k₂ target msg : Nat} {call₁ call₂ : Call} {as : List (Nat × Action)}
    (run : machine.Reach s) (earlier : (k₁, call₁) ∈ s.sent) (loc : call₁.loc = call₂.loc)
    (at_ : s.sending c = .filled k₂ call₂ target msg)
    (later : machine.exec s ((c, .enqueueMsg) :: as) = some u) :
    (u.invocations call₂.loc).Nodup ∧
      (k₁ ∈ s.dequeued call₂.loc → k₂ ∈ u.invocations call₂.loc →
        [k₁, k₂].Sublist (u.invocations call₂.loc)) ∧
      (k₁ ∉ s.dequeued call₂.loc → k₁ ∈ u.invocations call₂.loc →
        [k₂, k₁].Sublist (u.invocations call₂.loc)) := by
  obtain ⟨content, h⟩ := correct run
  obtain ⟨_, t, moved, later⟩ := Machine.execVia_cons_iff.mp later
  obtain ⟨content', h', line⟩ := h.enqueueMsg at_ moved
  refine ⟨?_, fun dequeued => ?_, fun waits => ?_⟩
  · obtain ⟨final, h''⟩ := correct ((Machine.ReachVia.step run trivial moved).execVia later)
    have nodup : (u.line call₂.loc (final (.queue call₂.loc))).Nodup := h''.line_nodup
    obtain ⟨rest, split⟩ := invocations_prefix (s := u) (d := call₂.loc)
    rw [State.line, split] at nodup
    exact nodup.of_append_left.of_append_left
  · apply h'.invocations _ later
    rw [line]
    exact (List.singleton_sublist.mpr dequeued).append
      ((List.nil_sublist _).cons_cons k₂)
  · apply h'.invocations _ later
    have there : k₁ ∈ s.line call₂.loc (content (.queue call₂.loc)) := by
      rw [h.line_perm.mem_iff, mem_sentTo]
      exact ⟨call₁, loc, earlier⟩
    have queued := (List.mem_append.mp there).resolve_left waits
    rw [line]
    exact (List.singleton_sublist.mpr queued).cons_cons k₂ |>.trans (List.sublist_append_right ..)

/-- Cores 0 and 1 have their representatives, and core 1 sends core 0 a message. -/
def firstMessage : List (Nat × Action) :=
  [(0, .createRep 5), (0, .addRepOn 9), (1, .createRep 6), (1, .addRepOn 8),
    (1, .call (.msg1 0 7 3)), (1, .findTarget), (1, .popFree), (1, .malloc 11), (1, .fill),
    (1, .enqueueMsg), (1, .return)]

/-- Core 1 is about to push another message. -/
def secondMessage : List (Nat × Action) :=
  [(1, .call (.msg1 0 7 4)), (1, .findTarget), (1, .popFree), (1, .malloc 12), (1, .fill)]

/-- Core 0 handles a message that it has dequeued. -/
def handleMessage : List (Nat × Action) :=
  [(0, .invoke), (0, .handled), (0, .findHome), (0, .pushFree)]

/-- Core 0 dequeues the first message before the second one is pushed. -/
theorem order_sample : ∃ s u, machine.Reach s ∧ machine.Reach u ∧ 0 ∈ s.dequeued 0 ∧
    s.sending 1 = .filled 1 (.msg1 0 7 4) 5 12 ∧ u.invocations 0 = [0, 1] ∧
      [0, 1].Sublist (u.invocations 0) := by
  have ran : ((machine.exec blank
      (firstMessage ++ [(0, .handleEvent), (0, .dequeueMsgHead)] ++ secondMessage)).bind fun s =>
        (machine.exec s ((1, .enqueueMsg) :: handleMessage ++
          [(0, .dequeueMsgHead), (0, .invoke)])).map fun u =>
            ((s.sent, s.dequeued 0, s.sending 1), u.invocations 0)) =
      some (([(0, .msg1 0 7 3)], [0], .filled 1 (.msg1 0 7 4) 5 12), [0, 1]) := by
    decide +kernel
  obtain ⟨s, before, ran⟩ := Option.bind_eq_some_iff.mp ran
  obtain ⟨u, after, final⟩ := Option.map_eq_some_iff.mp ran
  simp only [Prod.mk.injEq] at final
  obtain ⟨⟨sent, dequeued, at_⟩, invoked⟩ := final
  have run : machine.Reach s := Machine.reachVia_of_execVia blank_initial before
  have there : 0 ∈ s.dequeued 0 := by simp [dequeued]
  have earlier : (0, .msg1 0 7 3) ∈ s.sent := by simp [sent]
  exact ⟨s, u, run, run.execVia after, there, at_, invoked,
    (order run earlier (by rfl) at_ after).2.1 there (by simp [Call.loc, invoked])⟩

/-- Core 1 completes a call, then another one, and core 0 handles the second message first. -/
theorem exists_overtaking : ∃ s u as, machine.Reach s ∧ machine.exec s as = some u ∧
    s.returns = [.ok 0 (.msg1 0 7 3)] ∧ s.sending 1 = .idle ∧ s.calls = 1 ∧
    u.returns = [.ok 1 (.msg1 0 7 4), .ok 0 (.msg1 0 7 3)] ∧ u.invocations 0 = [1, 0] := by
  let later : List (Nat × Action) := secondMessage ++ [(1, .enqueueMsg), (1, .return),
    (0, .handleEvent), (0, .dequeueMsgHead)] ++ handleMessage ++
      [(0, .dequeueMsgHead), (0, .invoke)]
  have ran : ((machine.exec blank firstMessage).bind fun s => (machine.exec s later).map fun u =>
      ((s.returns, s.sending 1, s.calls), u.returns, u.invocations 0)) =
      some (([.ok 0 (.msg1 0 7 3)], .idle, 1),
        [.ok 1 (.msg1 0 7 4), .ok 0 (.msg1 0 7 3)], [1, 0]) := by
    decide +kernel
  obtain ⟨s, before, ran⟩ := Option.bind_eq_some_iff.mp ran
  obtain ⟨u, after, final⟩ := Option.map_eq_some_iff.mp ran
  simp only [Prod.mk.injEq] at final
  obtain ⟨⟨returns, idle, calls⟩, returns', invoked⟩ := final
  exact ⟨s, u, later, Machine.reachVia_of_execVia blank_initial before, after, returns, idle, calls,
    returns', invoked⟩

end

end EBBLib.Delivery
