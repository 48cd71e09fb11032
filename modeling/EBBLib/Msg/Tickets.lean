import EBBLib.Msg.Effects

/-!
# Tickets

A call takes a ticket, and returns it with a message that it pushes or with the error that
there is no target.
-/

namespace EBBLib.Delivery

open MsgMgrPrim CObjEBBRootMultiImp Partition

/-- The ticket of a call whose message has not been pushed. -/
def Sending.ticket : Sending → Option Nat
  | called ticket _ _ | found ticket _ _ | mallocing ticket _ _ | filling ticket _ _ _
  | filled ticket _ _ _ => some ticket
  | _ => none

/-- The tickets of the messages that were pushed. -/
def State.tickets (s : State) : List Nat := s.sent.map Prod.fst

/-- Calls have different tickets. -/
structure Tickets (s : State) : Prop where
  sent : ∀ k ∈ s.tickets, k < s.calls
  nodup : s.tickets.Nodup
  started : ∀ d k, (s.sending d).ticket = some k → k < s.calls ∧ k ∉ s.tickets
  alone : ∀ d e k, (s.sending d).ticket = some k → (s.sending e).ticket = some k → d = e
  called : ∀ d k call registered, s.sending d = .called k call registered → registered →
    s.registered call.loc
  pushed : ∀ d k call, s.sending d = .pushed k call → (k, call) ∈ s.sent
  returned : ∀ k call, .ok k call ∈ s.returns → (k, call) ∈ s.sent
  notFound : ∀ k call registered, .notFound k call registered ∈ s.returns → registered = false ∧
    k < s.calls ∧ k ∉ s.tickets ∧ ∀ d, (s.sending d).ticket ≠ some k

section

variable {s t : State} {c d : Nat} {m : Move Place Nat} {v : Sending}

theorem setSending_cases {α : Type} (g : Sending → α) {x : α}
    (at_ : g ((s.setSending c v).sending d) = x) :
    d = c ∧ g v = x ∨ d ≠ c ∧ g (s.sending d) = x := by
  by_cases mine : d = c
  · rw [mine, setSending_self] at at_
    exact .inl ⟨mine, at_⟩
  · rw [setSending_of_ne mine] at at_
    exact .inr ⟨mine, at_⟩

/-- A step that neither starts nor ends a call, and pushes no message. -/
theorem Tickets.quiet (tickets : Tickets s) (grows : Grows s t)
    (same : t.calls = s.calls ∧ t.sent = s.sent ∧ t.returns = s.returns)
    (ticket : ∀ d, (t.sending d).ticket = (s.sending d).ticket)
    (moved : ∀ d, t.sending d = s.sending d ∨
      (∀ k call registered, t.sending d ≠ .called k call registered) ∧
        ∀ k call, t.sending d ≠ .pushed k call) : Tickets t := by
  obtain ⟨calls, sent, returns⟩ := same
  have pushed : t.tickets = s.tickets := congrArg (List.map Prod.fst) sent
  refine ⟨?_, ?_, ?_, ?_, ?_, ?_, ?_, ?_⟩
  · rw [pushed, calls]
    exact tickets.sent
  · rw [pushed]
    exact tickets.nodup
  · simp only [pushed, calls, ticket]
    exact tickets.started
  · simp only [ticket]
    exact tickets.alone
  · intro d k call registered at_ yes
    obtain old | ⟨uncalled, _⟩ := moved d
    · exact grows.registered _ (tickets.called d k call registered (old ▸ at_) yes)
    · exact absurd at_ (uncalled k call registered)
  · intro d k call at_
    obtain old | ⟨_, unpushed⟩ := moved d
    · exact sent ▸ tickets.pushed d k call (old ▸ at_)
    · exact absurd at_ (unpushed k call)
  · rw [returns, sent]
    exact tickets.returned
  · simp only [returns, pushed, calls, ticket]
    exact tickets.notFound

theorem Tickets.call {call : Call} (tickets : Tickets s) :
    Tickets ({ s with calls := s.calls + 1 }.setSending c
      (.called s.calls call (s.registered call.loc))) := by
  have new : s.calls ∉ s.tickets := fun there => Nat.lt_irrefl _ (tickets.sent _ there)
  have unused : ∀ d, (s.sending d).ticket ≠ some s.calls := fun d same =>
    Nat.lt_irrefl _ (tickets.started d _ same).1
  refine ⟨?_, tickets.nodup, ?_, ?_, ?_, ?_, tickets.returned, ?_⟩
  · exact fun k there => Nat.lt_succ_of_lt (tickets.sent k there)
  · intro d k at_
    obtain ⟨_, ⟨⟩⟩ | ⟨_, old⟩ := setSending_cases Sending.ticket at_
    · exact ⟨Nat.lt_succ_self _, new⟩
    · exact (tickets.started d k old).imp_left Nat.lt_succ_of_lt
  · intro d e k at_ at'
    obtain ⟨rfl, ⟨⟩⟩ | ⟨_, old⟩ := setSending_cases Sending.ticket at_
    · obtain ⟨same, _⟩ | ⟨_, old⟩ := setSending_cases Sending.ticket at'
      · exact same.symm
      · exact absurd old (unused e)
    · obtain ⟨_, ⟨⟩⟩ | ⟨_, old'⟩ := setSending_cases Sending.ticket at'
      · exact absurd old (unused d)
      · exact tickets.alone d e k old old'
  · intro d k call' registered at_ yes
    obtain ⟨_, ⟨⟩⟩ | ⟨_, old⟩ := setSending_cases id at_
    · exact yes
    · exact tickets.called d k call' registered old yes
  · intro d k call' at_
    obtain ⟨_, ⟨⟩⟩ | ⟨_, old⟩ := setSending_cases id at_
    exact tickets.pushed d k call' old
  · intro k call' registered there
    obtain ⟨unregistered, before, unsent, nobody⟩ := tickets.notFound k call' registered there
    refine ⟨unregistered, Nat.lt_succ_of_lt before, unsent, fun d at_ => ?_⟩
    obtain ⟨_, ⟨⟩⟩ | ⟨_, old⟩ := setSending_cases Sending.ticket at_
    · exact Nat.lt_irrefl _ before
    · exact nobody d old

/-- A core that ends a call holds no ticket any more. -/
theorem Tickets.ended (tickets : Tickets s) (grows : Grows s t)
    (same : t.calls = s.calls ∧ t.sent = s.sent ∧ t.sending = s.sending)
    (returned : ∀ k call, .ok k call ∈ t.returns → (k, call) ∈ s.sent)
    (notFound : ∀ k call registered, .notFound k call registered ∈ t.returns →
      registered = false ∧ k < s.calls ∧ k ∉ s.tickets ∧
        ∀ d, d ≠ c → (s.sending d).ticket ≠ some k) :
    Tickets (t.setSending c .idle) := by
  obtain ⟨calls, sent, sending⟩ := same
  have kept : t.tickets = s.tickets := congrArg (List.map Prod.fst) sent
  have others : ∀ {α : Type} {d : Nat} {x : α} (g : Sending → α),
      g ((t.setSending c .idle).sending d) = x → g .idle ≠ x → d ≠ c ∧ g (s.sending d) = x := by
    intro α d x g at_ other
    obtain ⟨_, idle⟩ | old := setSending_cases g at_
    · exact absurd idle other
    · exact sending ▸ old
  refine ⟨?_, ?_, ?_, ?_, ?_, ?_, ?_, ?_⟩
  · exact kept.symm ▸ calls.symm ▸ tickets.sent
  · exact kept.symm ▸ tickets.nodup
  · intro d k at_
    obtain ⟨_, old⟩ := others Sending.ticket at_ (by simp [Sending.ticket])
    exact kept.symm ▸ calls.symm ▸ tickets.started d k old
  · intro d e k first second
    obtain ⟨_, old⟩ := others Sending.ticket first (by simp [Sending.ticket])
    obtain ⟨_, old'⟩ := others Sending.ticket second (by simp [Sending.ticket])
    exact tickets.alone d e k old old'
  · intro d k call registered at_ yes
    obtain ⟨_, old⟩ := others id at_ (by simp)
    exact grows.registered _ (tickets.called d k call registered old yes)
  · intro d k call at_
    obtain ⟨_, old⟩ := others id at_ (by simp)
    exact sent.symm ▸ tickets.pushed d k call old
  · exact fun k call there => sent.symm ▸ returned k call there
  · intro k call registered there
    obtain ⟨no, before, unsent, nobody⟩ := notFound k call registered there
    refine ⟨no, calls.symm ▸ before, kept.symm ▸ unsent, fun d at_ => ?_⟩
    obtain ⟨other, old⟩ := others Sending.ticket at_ (by simp [Sending.ticket])
    exact nobody d other old

/-- A core that ends a call without a message gives its ticket up. -/
theorem Tickets.giveUp {ticket : Nat} {call : Call} {registered : Bool} (tickets : Tickets s)
    (r : Ready s) (at_ : s.sending c = .called ticket call registered)
    (missing : s.known call.loc = 0) :
    Tickets ({ s.remember c call.loc with
      returns := .notFound ticket call registered :: s.returns }.setSending c .idle) := by
  have mine : (s.sending c).ticket = some ticket := by rw [at_]; rfl
  have unregistered : registered = false := by
    by_contra yes
    have there := tickets.called c ticket call registered at_ (by simpa using yes)
    exact r.roster.known_ne.mpr ⟨there, known_of_registered there⟩ missing
  have grows : Grows s { s.remember c call.loc with
      returns := .notFound ticket call registered :: s.returns } :=
    ⟨grows_remember.registered, fun _ _ => rfl⟩
  refine tickets.ended grows ⟨rfl, rfl, rfl⟩ ?_ ?_
  · intro k call' there
    obtain ⟨⟩ | ⟨_, there⟩ := there
    exact tickets.returned k call' there
  · intro k call' registered' there
    obtain ⟨⟩ | ⟨_, there⟩ := there
    · obtain ⟨before, unsent⟩ := tickets.started c ticket mine
      exact ⟨unregistered, before, unsent, fun d other old =>
        other (tickets.alone d c ticket old mine)⟩
    · obtain ⟨no, before, unsent, nobody⟩ := tickets.notFound k call' registered' there
      exact ⟨no, before, unsent, fun d _ => nobody d⟩

/-- The ticket of a call goes to the message that it pushes. -/
theorem Tickets.enqueueMsg {ticket target msg : Nat} {call : Call} {stores : Stores} {reps : Reps}
    (tickets : Tickets s) (at_ : s.sending c = .filled ticket call target msg)
    (grows : Grows s ({ s with stores, reps, sent := (ticket, call) :: s.sent }.setSending c
      (.pushed ticket call))) :
    Tickets ({ s with stores, reps, sent := (ticket, call) :: s.sent }.setSending c
      (.pushed ticket call)) := by
  have mine : (s.sending c).ticket = some ticket := by rw [at_]; rfl
  obtain ⟨before, unsent⟩ := tickets.started c ticket mine
  have keeps : ∀ {k}, k ≠ ticket → k ∉ s.tickets → k ∉ ticket :: s.tickets := fun other unsent =>
    List.not_mem_cons_of_ne_of_not_mem other unsent
  refine ⟨?_, List.nodup_cons.mpr ⟨unsent, tickets.nodup⟩, ?_, ?_, ?_, ?_, ?_, ?_⟩
  · intro k there
    obtain rfl | there := List.mem_cons.mp there
    · exact before
    · exact tickets.sent k there
  · intro d k at'
    obtain ⟨_, ⟨⟩⟩ | ⟨other, old⟩ := setSending_cases Sending.ticket at'
    obtain ⟨before, unsent⟩ := tickets.started d k old
    refine ⟨before, keeps ?_ unsent⟩
    rintro rfl
    exact other (tickets.alone d c k old mine)
  · intro d e k first second
    obtain ⟨_, ⟨⟩⟩ | ⟨_, old⟩ := setSending_cases Sending.ticket first
    obtain ⟨_, ⟨⟩⟩ | ⟨_, old'⟩ := setSending_cases Sending.ticket second
    exact tickets.alone d e k old old'
  · intro d k call' registered at' yes
    obtain ⟨_, ⟨⟩⟩ | ⟨_, old⟩ := setSending_cases id at'
    exact grows.registered _ (tickets.called d k call' registered old yes)
  · intro d k call' at'
    obtain ⟨_, ⟨⟩⟩ | ⟨_, old⟩ := setSending_cases id at'
    · exact List.mem_cons_self
    · exact List.mem_cons_of_mem _ (tickets.pushed d k call' old)
  · exact fun k call' there => List.mem_cons_of_mem _ (tickets.returned k call' there)
  · intro k call' registered there
    obtain ⟨no, before, unsent, nobody⟩ := tickets.notFound k call' registered there
    refine ⟨no, before, keeps ?_ unsent, fun d at' => ?_⟩
    · rintro rfl
      exact nobody c mine
    · obtain ⟨_, ⟨⟩⟩ | ⟨_, old⟩ := setSending_cases Sending.ticket at'
      exact nobody d old

theorem Tickets.return {ticket : Nat} {call : Call} (tickets : Tickets s)
    (at_ : s.sending c = .pushed ticket call) :
    Tickets ({ s with returns := .ok ticket call :: s.returns }.setSending c .idle) := by
  have pushed := tickets.pushed c ticket call at_
  refine tickets.ended ⟨fun _ => id, fun _ _ => rfl⟩ ⟨rfl, rfl, rfl⟩ ?_ ?_
  · intro k call' there
    obtain ⟨⟩ | ⟨_, there⟩ := there
    · exact pushed
    · exact tickets.returned k call' there
  · intro k call' registered there
    obtain ⟨⟩ | ⟨_, there⟩ := there
    obtain ⟨no, before, unsent, nobody⟩ := tickets.notFound k call' registered there
    exact ⟨no, before, unsent, fun d _ => nobody d⟩

/-- A step of a sender between its search and the push. -/
theorem Tickets.work (tickets : Tickets s) (grows : Grows s t)
    (same : t.calls = s.calls ∧ t.sent = s.sent ∧ t.returns = s.returns)
    (moved : t.sending = Function.update s.sending c v) (ticket : v.ticket = (s.sending c).ticket)
    (between : (∀ k call registered, v ≠ .called k call registered) ∧
      ∀ k call, v ≠ .pushed k call) :
    Tickets t := by
  have cases : ∀ d, d = c ∧ t.sending d = v ∨ d ≠ c ∧ t.sending d = s.sending d := by
    intro d
    by_cases mine : d = c
    · exact .inl ⟨mine, by rw [moved, mine, Function.update_self]⟩
    · exact .inr ⟨mine, by rw [moved, Function.update_of_ne mine]⟩
  refine tickets.quiet grows same (fun d => ?_) fun d => ?_
  · obtain ⟨rfl, now⟩ | ⟨_, old⟩ := cases d
    · rw [now, ticket]
    · rw [old]
  · obtain ⟨_, now⟩ | ⟨_, old⟩ := cases d
    · exact .inr (now ▸ between)
    · exact .inl old

theorem Tickets.effect (tickets : Tickets s) (r : Ready s) (effect : Effect s c m t) :
    Tickets t := by
  have grows := (r.roster_effect effect).2
  cases effect with
  | call => exact tickets.call
  | notFound at_ missing => exact tickets.giveUp r at_ missing
  | enqueueMsg at_ => exact tickets.enqueueMsg at_ grows
  | «return» at_ => exact tickets.return at_
  | found at_ | popFree at_ | noFree at_ | malloc at_ | fill at_ =>
      exact tickets.work grows ⟨rfl, rfl, rfl⟩ rfl (by rw [at_]; rfl) (by simp)
  | _ => exact tickets.quiet grows ⟨rfl, rfl, rfl⟩ (fun _ => rfl) fun _ => .inl rfl

theorem Initial.tickets (start : Initial s) : Tickets s where
  sent k there := by simp [State.tickets, start.sent] at there
  nodup := by simp [State.tickets, start.sent]
  started d k at_ := by simp [start.sending d, Sending.ticket] at at_
  alone d _ k at_ := by simp [start.sending d, Sending.ticket] at at_
  called d _ _ _ at_ := by simp [start.sending d] at at_
  pushed d _ _ at_ := by simp [start.sending d] at at_
  returned k call there := by simp [start.returns] at there
  notFound k call registered there := by simp [start.returns] at there

end

end EBBLib.Delivery
