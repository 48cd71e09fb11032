import EBBLib.Msg.Progress
import EBBLib.Msg.Tickets

/-!
# Messages are delivered exactly once

The messages that were pushed for a core are those in its queue, the one that it handles
and those that it has handled. Tickets tell messages with the same content apart.
-/

namespace EBBLib.Delivery

open Chain MsgMgrPrim CObjEBBRootMultiImp Partition

namespace State

variable (s : State) (c : Nat)

/-- What a store means to core `c`: the ticket of the message, and the method that it invokes. -/
def message (a : Nat) : Nat × Option Call := (s.ticket a, invoked c (s.stores a))

/-- The message that core `c` handles, from its dequeue on until the method returns. -/
def current : List (Nat × Option Call) :=
  match s.handling c with
  | .dequeued msg => [s.message c msg]
  | .handling msg method => [(s.ticket msg, method)]
  | _ => []

/-- The messages that core `c` has taken from its queue, the last one first. -/
def taken : List (Nat × Option Call) := s.current c ++ s.handled c

/-- The messages that were pushed for core `c`. -/
def sentTo : List (Nat × Option Call) :=
  (s.sent.filter fun m => m.2.loc = c).map fun m => (m.1, some m.2)

/-- The stores in the queue of core `c` are `queue`, and these are all its messages. -/
def messages (queue : List Nat) : List (Nat × Option Call) :=
  queue.map (s.message c) ++ s.current c ++ s.handled c

/-- A store is at a place. -/
def At (p : Place) (a : Nat) : Prop := ∃ xs, s.Has p xs ∧ a ∈ xs

end State

/-- Messages are neither lost nor made up. -/
def Delivered (s : State) (content : Place → List Nat) : Prop :=
  ∀ d, (s.messages d (content (.queue d))).Perm (s.sentTo d)

/-- What holds of all messages and stores. -/
structure ExactlyOnce (s : State) : Prop where
  /-- The messages of a core are those that were pushed for it, with what they invoke. -/
  messages : ∀ c, ∃ queue, s.Has (.queue c) queue ∧ (s.messages c queue).Perm (s.sentTo c)
  /-- No two messages have the same ticket. -/
  distinct : s.tickets.Nodup
  /-- A call that has returned `EBBRC_OK` has one message: it is queued, handled now or was
  handled, once. -/
  ok : ∀ ticket call, .ok ticket call ∈ s.returns → ∃ queue, s.Has (.queue call.loc) queue ∧
    (s.messages call.loc queue).count (ticket, some call) = 1 ∧
    ((s.messages call.loc queue).map Prod.fst).count ticket = 1 ∧
    ∀ c ≠ call.loc, ∀ queue, s.Has (.queue c) queue → ticket ∉ (s.messages c queue).map Prod.fst
  /-- A call returns `EBBRC_NOTFOUND` only if the target was not registered, without a message. -/
  notFound : ∀ ticket call registered, .notFound ticket call registered ∈ s.returns →
    registered = false ∧
      ∀ c queue, s.Has (.queue c) queue → ticket ∉ (s.messages c queue).map Prod.fst
  /-- A store is in one place, and there once. -/
  stores : ∀ a ∈ s.allocated, ∃! p, s.At p a
  once : ∀ p xs, s.Has p xs → xs.Nodup
  /-- No core gets stuck in a call or in `handleEvent`. -/
  goesOn : ∀ c, s.sending c ≠ .idle ∨ s.handling c ≠ .outside → ∃ act, (s.step c act).isSome

section

variable {s t : State} {c d : Nat} {m : Move Place Nat} {content content' : Place → List Nat}

/-! ### Messages -/

/-- What a step means to the messages of core `d`, in its queue and taken from it. -/
inductive Turn (s t : State) (d : Nat) (queue queue' : List Nat) : Prop
  | same (queue : queue'.map (t.message d) = queue.map (s.message d))
      (taken : t.taken d = s.taken d)
      (sent : t.sentTo d = s.sentTo d)
  | push (ticket : Nat) (call : Call) (loc : call.loc = d)
      (queue : queue'.map (t.message d) = (ticket, some call) :: queue.map (s.message d))
      (taken : t.taken d = s.taken d) (sent : t.sent = (ticket, call) :: s.sent)
  | pop (m : Nat × Option Call) (queue : queue.map (s.message d) = m :: queue'.map (t.message d))
      (taken : t.taken d = m :: s.taken d) (sent : t.sentTo d = s.sentTo d)

/-- What a step means to the messages of all cores. -/
def Turns (s t : State) (content content' : Place → List Nat) : Prop :=
  ∀ d, Turn s t d (content (.queue d)) (content' (.queue d))

theorem turns_frame (queue : ∀ d, content' (.queue d) = content (.queue d))
    (message : ∀ d, ∀ a ∈ content (.queue d), t.message d a = s.message d a)
    (current : ∀ d, t.current d = s.current d) (handled : t.handled = s.handled)
    (sent : t.sent = s.sent) : Turns s t content content' := by
  intro d
  apply Turn.same
  · rw [queue, List.map_congr_left (message d)]
  · rw [State.taken, State.taken, current, handled]
  · rw [State.sentTo, State.sentTo, sent]

/-- A step that writes no message and moves no message. -/
theorem turns_quiet (queue : ∀ d, content' (.queue d) = content (.queue d))
    (ticket : t.ticket = s.ticket)
    (stores : ∀ d a, invoked d (t.stores a) = invoked d (s.stores a))
    (handling : ∀ d, t.handling d = s.handling d ∨ t.current d = [] ∧ s.current d = [])
    (handled : t.handled = s.handled) (sent : t.sent = s.sent) : Turns s t content content' := by
  have message : ∀ d a, t.message d a = s.message d a := by
    intro d a
    rw [State.message, State.message, ticket, stores]
  apply turns_frame queue (fun d a _ => message d a) _ handled sent
  intro d
  obtain same | ⟨empty, empty'⟩ := handling d
  · rw [State.current, State.current, same]
    simp only [message, ticket]
  · rw [empty, empty']

/-- A core that handles no message goes on to handle none. -/
theorem current_update {w : Handling} (moved : t.handling = Function.update s.handling c w)
    (before : s.current c = []) (after : t.current c = []) (d : Nat) :
    t.handling d = s.handling d ∨ t.current d = [] ∧ s.current d = [] := by
  by_cases mine : d = c
  · subst mine
    exact .inr ⟨after, before⟩
  · left
    rw [moved, Function.update_of_ne mine]

/-- A handler goes on with a message when its store still means the same. -/
theorem Placed.current_eq (placed : Placed s content) (handling : t.handling d = s.handling d)
    (message : ∀ a ∈ content (.handler d), t.message d a = s.message d a) :
    t.current d = s.current d := by
  rw [State.current, State.current, handling]
  split
  · rename_i msg at_
    have there : msg ∈ content (.handler d) := by simp [placed.handler_eq at_, Handling.store]
    rw [message msg there]
  · rename_i msg method at_
    have there : msg ∈ content (.handler d) := by simp [placed.handler_eq at_, Handling.store]
    have ticket : t.ticket msg = s.ticket msg := congrArg Prod.fst (message msg there)
    rw [ticket]
  · rfl

theorem Placed.turns_fill {ticket target msg : Nat} {call : Call} (placed : Placed s content)
    (at_ : s.sending c = .filling ticket call target msg) :
    Turns s ({ s with
      stores := Function.update s.stores msg (call.fill c (s.stores msg))
      ticket := Function.update s.ticket msg ticket }.setSending c
        (.filled ticket call target msg)) content content := by
  have here : msg ∈ content (.sender c) := by simp [placed.sender_eq at_, Sending.store]
  -- The store is in no other place, so that the other messages stay.
  have message : ∀ p, .sender c ≠ p → ∀ d, ∀ a ∈ content p, ({ s with
      stores := Function.update s.stores msg (call.fill c (s.stores msg))
      ticket := Function.update s.ticket msg ticket }.setSending c
        (.filled ticket call target msg)).message d a = s.message d a := by
    intro p away d a there
    have other : a ≠ msg := ne_of_mem_of_not_mem there (placed.covers.not_mem_of_ne here away)
    simp only [State.message, State.setSending, Function.update_of_ne other]
  apply turns_frame (fun _ => rfl) (fun d => message (.queue d) (by simp) d) _ rfl rfl
  exact fun d => placed.current_eq rfl (message (.handler d) (by simp) d)

theorem Placed.turns_enqueueMsg {ticket msg : Nat} {call : Call} (placed : Placed s content)
    (at_ : s.sending c = .filled ticket call (s.rep call.loc) msg) :
    Turns s ({ s with
        stores := s.stores.setNext msg (s.reps (s.rep call.loc)).msgqueue
        reps := s.reps.setQueue (s.rep call.loc) msg
        sent := (ticket, call) :: s.sent }.setSending c (.pushed ticket call)) content
      ((Move.shift (.sender c) (.queue call.loc)).apply content) := by
  have front : content (.sender c) = [msg] := placed.sender_eq at_
  obtain ⟨tickets, method⟩ := placed.filled c ticket call _ msg at_
  generalize after : State.setSending _ c (.pushed ticket call) = t
  have message : ∀ d a, t.message d a = s.message d a := by
    intro d a
    subst after
    exact congrArg (Prod.mk _) (invoked_setNext ..)
  have current : ∀ d, t.current d = s.current d := fun d =>
    placed.current_eq (after ▸ rfl) fun a _ => message d a
  have handled : t.handled = s.handled := after ▸ rfl
  have sent : t.sent = (ticket, call) :: s.sent := after ▸ rfl
  intro d
  have taken : t.taken d = s.taken d := by rw [State.taken, State.taken, current, handled]
  by_cases here : d = call.loc
  · subst here
    have pushed : s.message call.loc msg = (ticket, some call) := by
      rw [State.message, tickets, method]
    refine .push ticket call rfl ?_ taken sent
    rw [funext (message call.loc), apply_shift front, move_target, List.map_cons, pushed]
  · refine .same ?_ taken ?_
    · rw [funext (message d), shift_of_ne (by simp) (by simp [here])]
    · rw [State.sentTo, State.sentTo, sent, List.filter_cons_of_neg (by simpa using Ne.symm here)]

theorem Placed.turns_dequeueMsg (placed : Placed s content) (r : Ready s)
    (at_ : s.handling c = .draining) (queued : (s.reps (s.rep c)).msgqueue ≠ 0) :
    Turns s ({ s with
        reps :=
          s.reps.setQueue (s.rep c) (s.stores.next (s.reps (s.rep c)).msgqueue) }.setHandling c
          (.dequeued (s.reps (s.rep c)).msgqueue)) content
      ((Move.shift (.queue c) (.handler c)).apply content) := by
  obtain ⟨ys, front, _⟩ := (placed.has (.queue c)).pop (r.handler c (by simp [at_])) queued
  intro d
  by_cases mine : d = c
  · subst mine
    have idle : s.current d = [] := by rw [State.current, at_]
    refine .pop (s.message d (s.reps (s.rep d)).msgqueue) ?_ ?_ rfl
    · rw [front, apply_shift front, move_source (by simp)]
      rfl
    · rw [State.taken, State.taken, State.current, setHandling_self, idle]
      rfl
  · refine .same ?_ ?_ rfl
    · rw [shift_of_ne (by simp [mine]) (by simp)]
      rfl
    · rw [State.taken, State.taken, State.current, State.current, setHandling_of_ne mine]
      rfl

/-- A step of a handler that leaves the stores alone. -/
theorem turns_handle (same : t.stores = s.stores ∧ t.ticket = s.ticket ∧ t.sent = s.sent)
    (others : ∀ d, d ≠ c → t.handling d = s.handling d ∧ t.handled d = s.handled d)
    (mine : t.taken c = s.taken c) : Turns s t content content := by
  obtain ⟨stores, ticket, sent⟩ := same
  have message : ∀ d, t.message d = s.message d := by
    intro d
    funext a
    rw [State.message, State.message, stores, ticket]
  intro d
  refine .same (by rw [message]) ?_ (by rw [State.sentTo, State.sentTo, sent])
  by_cases at_ : d = c
  · rw [at_, mine]
  · rw [State.taken, State.taken, State.current, State.current, (others d at_).1, (others d at_).2,
      message, ticket]

theorem turns_invoke {msg : Nat} (at_ : s.handling c = .dequeued msg) :
    Turns s (s.setHandling c (.handling msg (invoked c (s.stores msg)))) content content := by
  refine turns_handle (c := c) ⟨rfl, rfl, rfl⟩ (fun d other => ?_) ?_
  · exact ⟨setHandling_of_ne other, rfl⟩
  · simp [State.taken, State.current, at_, State.message, State.setHandling]

theorem turns_handled {msg : Nat} {method : Option Call}
    (at_ : s.handling c = .handling msg method) :
    Turns s ({ s with
        handled :=
          Function.update s.handled c ((s.ticket msg, method) :: s.handled c) }.setHandling c
          (.freeing msg)) content content := by
  refine turns_handle (c := c) ⟨rfl, rfl, rfl⟩ (fun d other => ?_) ?_
  · exact ⟨setHandling_of_ne other, Function.update_of_ne other ..⟩
  · simp [State.taken, State.current, at_, State.setHandling]

theorem Placed.turns (placed : Placed s content) (r : Ready s) (effect : Effect s c m t) :
    Turns s t content (m.apply content) := by
  cases effect with
  | createRep | addRepOn | call | notFound | found | noFree | «return» =>
      exact turns_quiet (fun _ => rfl) rfl (fun _ _ => rfl) (fun _ => .inl rfl) rfl rfl
  | popFree =>
      exact turns_quiet (fun _ => shift_of_ne (by simp) (by simp)) rfl (fun _ _ => rfl)
        (fun _ => .inl rfl) rfl rfl
  | malloc =>
      exact turns_quiet (fun _ => put_of_ne (by simp)) rfl (fun _ _ => rfl) (fun _ => .inl rfl)
        rfl rfl
  | handleEvent _ at_ | drained at_ | findHome at_ =>
      refine turns_quiet (fun _ => rfl) rfl (fun _ _ => rfl) ?_ rfl rfl
      exact current_update rfl (by simp [State.current, at_])
        (by simp [State.current, State.setHandling])
  | pushFree at_ =>
      refine turns_quiet (fun _ => shift_of_ne (by simp) (by simp)) rfl
        (fun _ _ => invoked_setNext ..) ?_ rfl rfl
      exact current_update rfl (by simp [State.current, at_]) (by simp [State.current])
  | fill at_ => exact placed.turns_fill at_
  | enqueueMsg at_ target => exact placed.turns_enqueueMsg at_
  | dequeueMsg at_ queued => exact placed.turns_dequeueMsg r at_ queued
  | invoke at_ => exact turns_invoke at_
  | handled at_ => exact turns_handled at_

theorem messages_eq (queue : List Nat) :
    s.messages c queue = queue.map (s.message c) ++ s.taken c := List.append_assoc ..

theorem Delivered.turns (delivered : Delivered s content) (turns : Turns s t content content') :
    Delivered t content' := by
  intro d
  have before := delivered d
  rw [messages_eq] at before ⊢
  obtain ⟨queue, taken, sent⟩ | ⟨ticket, call, loc, queue, taken, sent⟩ | ⟨m, queue, taken, sent⟩ :=
    turns d
  · rw [queue, taken, sent]
    exact before
  · have more : t.sentTo d = (ticket, some call) :: s.sentTo d := by
      rw [State.sentTo, sent, List.filter_cons_of_pos (by simp [loc])]
      rfl
    rw [queue, taken, more]
    exact before.cons _
  · rw [queue] at before
    rw [taken, sent]
    exact List.perm_middle.trans before

/-! ### Runs -/

theorem State.Has.unique {p : Place} {xs ys : List Nat} (has : s.Has p xs) (has' : s.Has p ys) :
    xs = ys := by
  have lists : ∀ {c head}, s.HasList c head xs → s.HasList c head ys → xs = ys := by
    intro c head has has'
    by_cases created : s.rep c = 0
    · rw [State.HasList, if_pos created] at has has'
      rw [has, has']
    · rw [hasList_iff created] at has has'
      exact has.unique has'
  cases p with
  | queue | free => exact lists has has'
  | sender | handler => exact Eq.trans has (Eq.symm has')

/-- The representatives, the stores and the messages are in order. -/
structure Correct (s : State) (content : Place → List Nat) : Prop where
  ready : Ready s
  tickets : Tickets s
  homed : Homed s
  placed : Placed s content
  delivered : Delivered s content

theorem Initial.delivered (start : Initial s) : Delivered s fun _ => [] := by
  intro d
  simp [State.messages, State.current, State.sentTo, start.handling d, start.handled d, start.sent]

/-- What a step keeps, and what it means to the messages. -/
theorem Correct.step {act : Action} (h : Correct s content) (moved : s.step c act = some t) :
    ∃ content', Correct t content' ∧ Turns s t content content' := by
  obtain ⟨ready, tickets, homed, placed, delivered⟩ := h
  obtain ⟨m, effect⟩ := ready.step_effect moved
  have turns : Turns s t content (m.apply content) := placed.turns ready effect
  exact ⟨m.apply content, ⟨ready.effect effect, tickets.effect ready effect,
    homed.effect ready effect, placed.effect ready effect, delivered.turns turns⟩, turns⟩

theorem correct (run : machine.Reach s) : ∃ content, Correct s content := by
  apply run.invariant
  · intro s start
    exact ⟨_, start.ready, start.tickets, start.homed, start.placed, start.delivered⟩
  · rintro s ⟨c, act⟩ t _ ⟨content, h⟩ _ moved
    obtain ⟨content', h', _⟩ := h.step moved
    exact ⟨content', h'⟩

theorem map_fst_sentTo : (s.sentTo c).map Prod.fst =
    (s.sent.filter fun m => m.2.loc = c).map Prod.fst := by
  simp [State.sentTo, Function.comp_def]

theorem Tickets.nodup_sentTo (tickets : Tickets s) : ((s.sentTo c).map Prod.fst).Nodup := by
  rw [map_fst_sentTo]
  exact tickets.nodup.sublist (List.filter_sublist.map Prod.fst)

theorem mem_sentTo {ticket : Nat} : ticket ∈ (s.sentTo c).map Prod.fst ↔
    ∃ call, call.loc = c ∧ (ticket, call) ∈ s.sent := by
  rw [map_fst_sentTo]
  simp [and_comm]

/-- A message that was pushed is with the core that it is for, once, and with no other core. -/
theorem Correct.ok {ticket : Nat} {call : Call} (h : Correct s content)
    (sent : (ticket, call) ∈ s.sent) :
    (s.messages call.loc (content (.queue call.loc))).count (ticket, some call) = 1 ∧
      ((s.messages call.loc (content (.queue call.loc))).map Prod.fst).count ticket = 1 := by
  have there : (ticket, some call) ∈ s.sentTo call.loc :=
    List.mem_map_of_mem (f := fun m => (m.1, some m.2)) (List.mem_filter.mpr ⟨sent, by simp⟩)
  have nodup : (s.sentTo call.loc).Nodup := h.tickets.nodup_sentTo.of_map
  constructor
  · rw [(h.delivered call.loc).count_eq]
    exact List.count_eq_one_of_mem nodup there
  · rw [((h.delivered call.loc).map Prod.fst).count_eq]
    exact List.count_eq_one_of_mem h.tickets.nodup_sentTo (List.mem_map_of_mem there)

/-- The ids of the cores are below `LRT_PIC_MAX_PICS`. -/
def HasPic (_ : State) (a : Nat × Action) : Prop := a.1 < maxPics

theorem within (run : machine.ReachVia HasPic s) : Within s := by
  apply run.invariant
  · exact fun s start => start.within
  · rintro s ⟨c, act⟩ t before within small moved
    obtain ⟨content, h⟩ := correct before.reach
    obtain ⟨m, effect⟩ := h.ready.step_effect moved
    exact within.effect small effect

/-- In every run of cores with ids below `LRT_PIC_MAX_PICS`, messages are delivered exactly once
and stores are neither lost nor duplicated. -/
theorem exactly_once (run : machine.ReachVia HasPic s) : ExactlyOnce s := by
  obtain ⟨content, h⟩ := correct run.reach
  -- The messages of a core are those that were pushed for it.
  have pushed : ∀ c queue ticket, s.Has (.queue c) queue →
      (ticket ∈ (s.messages c queue).map Prod.fst ↔
        ∃ call, call.loc = c ∧ (ticket, call) ∈ s.sent) := by
    intro c queue ticket has
    rw [has.unique (h.placed.has (.queue c)), ((h.delivered c).map Prod.fst).mem_iff, mem_sentTo]
  constructor
  · exact fun c => ⟨_, h.placed.has (.queue c), h.delivered c⟩
  · exact h.tickets.nodup
  · intro ticket call returned
    have sent := h.tickets.returned ticket call returned
    refine ⟨_, h.placed.has (.queue call.loc), (h.ok sent).1, (h.ok sent).2, ?_⟩
    intro c other queue has there
    obtain ⟨call', at_, sent'⟩ := (pushed c queue ticket has).mp there
    have same := List.inj_on_of_nodup_map h.tickets.nodup sent' sent rfl
    cases same
    exact other at_.symm
  · intro ticket call registered returned
    obtain ⟨unregistered, _, unsent, _⟩ := h.tickets.notFound ticket call registered returned
    refine ⟨unregistered, fun c queue has there => ?_⟩
    obtain ⟨call', _, sent⟩ := (pushed c queue ticket has).mp there
    exact unsent (List.mem_map_of_mem sent)
  · intro a there
    obtain ⟨p, here, only⟩ := h.placed.covers.existsUnique there
    refine ⟨p, ⟨_, h.placed.has p, here⟩, ?_⟩
    rintro p' ⟨xs, has, there⟩
    rw [has.unique (h.placed.has p')] at there
    exact only p' there
  · intro p xs has
    rw [has.unique (h.placed.has p)]
    exact h.placed.covers.nodup p
  · exact fun c busy => exists_step h.ready h.homed (within run) h.placed busy

/-- Nothing has happened. -/
def blank : State where
  stores := fun _ => ⟨0, 0, 0, 0, fun _ => 0⟩
  reps := fun _ => newRep 0 0
  heap := ⟨fun _ => ⟨0, 0⟩, fun _ => ⟨0, 0, 0⟩⟩
  rootRefMM := 0
  rep := fun _ => 0
  sending := fun _ => .idle
  handling := fun _ => .outside
  nodes := []
  objects := []
  allocated := []
  calls := 0
  ticket := fun _ => 0
  sent := []
  returns := []
  handled := fun _ => []

theorem blank_initial : Initial blank :=
  ⟨fun _ => rfl, fun _ => rfl, fun _ => rfl, rfl, rfl, rfl, rfl, rfl, rfl, fun _ => rfl⟩

instance (s : State) (a : Nat × Action) : Decidable (HasPic s a) :=
  inferInstanceAs (Decidable (_ < _))

/-- Core 1 does not find core 0 at first. Then it sends core 0 a message, which handles it and
returns the store. -/
theorem exactly_once_sample : ∃ s, machine.ReachVia HasPic s ∧
    s.returns = [.ok 1 (.msg2 0 7 3 4), .notFound 0 (.msg0 0 7) false] ∧
    s.handled 0 = [(1, some (.msg2 0 7 3 4))] ∧ (s.reps (s.rep 1)).freelist = 11 ∧
      ExactlyOnce s := by
  have ran : (machine.execVia HasPic blank
      [(1, .createRep 6), (1, .addRepOn 8), (1, .call (.msg0 0 7)), (0, .createRep 5),
        (1, .findTarget), (0, .addRepOn 9), (1, .call (.msg2 0 7 3 4)), (1, .findTarget),
        (1, .popFree), (1, .malloc 11), (1, .fill), (0, .handleEvent), (1, .enqueueMsg),
          (0, .dequeueMsgHead), (1, .return),
        (0, .invoke), (0, .handled), (0, .findHome), (0, .pushFree), (0, .dequeueMsgHead)]).map
          (fun s => (s.returns, s.handled 0, (s.reps (s.rep 1)).freelist)) =
      some ([.ok 1 (.msg2 0 7 3 4), .notFound 0 (.msg0 0 7) false],
        [(1, some (.msg2 0 7 3 4))], 11) := by decide +kernel
  obtain ⟨t, ran, final⟩ := Option.map_eq_some_iff.mp ran
  simp only [Prod.mk.injEq] at final
  have run : machine.ReachVia HasPic t := Machine.reachVia_of_execVia blank_initial ran
  exact ⟨t, run, final.1, final.2.1, final.2.2, exactly_once run⟩

/-- Core 64 sends core 0 a message. When core 0 returns the store, it looks for its home behind
the array `reps`, and the store comes to no list again. -/
theorem exists_not_exactly_once : ∃ s, machine.Reach s ∧ s.allocated = [11] ∧
    s.handling 0 = .freeing 11 ∧ (s.stores 11).home = maxPics ∧
      (s.reps (s.rep 0)).entry (s.stores 11).home = none ∧ ¬ ExactlyOnce s := by
  have ran : (machine.exec blank
      [(0, .createRep 5), (0, .addRepOn 9), (64, .createRep 6), (64, .addRepOn 8),
        (64, .call (.msg0 0 7)), (64, .findTarget), (64, .popFree), (64, .malloc 11), (64, .fill),
        (64, .enqueueMsg), (64, .return), (0, .handleEvent), (0, .dequeueMsgHead), (0, .invoke),
        (0, .handled)]).map
          (fun s => ((s.allocated, s.handling 0, (s.stores 11).home,
            (s.reps (s.rep 0)).entry (s.stores 11).home), s.rep 0, s.registered 0, s.sending 0)) =
      some (([11], .freeing 11, maxPics, none), 5, true, .idle) := by decide +kernel
  obtain ⟨t, ran, final⟩ := Option.map_eq_some_iff.mp ran
  simp only [Prod.mk.injEq] at final
  obtain ⟨⟨allocated, freeing, home, outside⟩, rep, registered, idle⟩ := final
  have run : machine.Reach t := Machine.reachVia_of_execVia blank_initial ran
  refine ⟨t, run, allocated, freeing, home, outside, fun once => ?_⟩
  obtain ⟨act, goes⟩ := once.goesOn 0 (.inr (by simp [freeing]))
  cases act with
  | findHome => simp [State.step, freeing, State.findTarget, MsgMgrPrim.findTarget, outside] at goes
  | createRep | addRepOn => simp [State.step, rep, registered] at goes
  | call => simp [State.step, State.CanCall, freeing, Handling.runs] at goes
  | _ => simp [State.step, idle, freeing] at goes

end

end EBBLib.Delivery
