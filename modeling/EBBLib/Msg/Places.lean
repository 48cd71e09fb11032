import EBBLib.Msg.Effects

/-!
# The places of the stores

Every store that was ever allocated is in one place: on the freelist of one core, in the
queue of one core, with one sender that fills it, or with one handler.
-/

namespace EBBLib.Delivery

open Chain MsgMgrPrim CObjEBBRootMultiImp Partition

/-- The list of stores from `head` on, which belongs to core `c`. -/
def State.HasList (s : State) (c head : Nat) (xs : List Nat) : Prop :=
  if s.rep c = 0 then xs = [] else Linked s.stores.next head xs

/-- A place has the stores `xs`. -/
def State.Has (s : State) : Place → List Nat → Prop
  | .queue c, xs => s.HasList c (s.reps (s.rep c)).msgqueue xs
  | .free c, xs => s.HasList c (s.reps (s.rep c)).freelist xs
  | .sender c, xs => xs = (s.sending c).store.toList
  | .handler c, xs => xs = (s.handling c).store.toList

/-- Where the stores are. -/
structure Placed (s : State) (content : Place → List Nat) : Prop where
  covers : Covers content s.allocated
  has : ∀ p, s.Has p (content p)
  nonzero : ∀ a ∈ s.allocated, a ≠ 0
  /-- What a sender has written to the store that it is going to push. -/
  filled : ∀ d ticket call target msg, s.sending d = .filled ticket call target msg →
    s.ticket msg = ticket ∧ invoked call.loc (s.stores msg) = some call

section

variable {s t : State} {c d : Nat} {act : Action} {m : Move Place Nat}

/-! ### Lists -/

section

variable {head msg : Nat} {xs : List Nat} {m : Reps} {r a : Nat}

theorem hasList_iff (created : s.rep c ≠ 0) : s.HasList c head xs ↔
    Linked s.stores.next head xs := by
  rw [State.HasList, if_neg created]

/-- A list keeps its stores when its head and the links of its stores stay. -/
theorem State.HasList.frame {head' : Nat} (has : s.HasList c head xs) (rep : t.rep c = s.rep c)
    (same : s.rep c ≠ 0 → head' = head) (links : ∀ a ∈ xs, t.stores.next a = s.stores.next a) :
    t.HasList c head' xs := by
  by_cases created : s.rep c = 0
  · rw [State.HasList, if_pos created] at has
    rw [State.HasList, rep, if_pos created]
    exact has
  · rw [hasList_iff created] at has
    rw [hasList_iff (rep ▸ created), same created]
    exact has.frame links

theorem State.HasList.pop (has : s.HasList c head xs) (created : s.rep c ≠ 0) (some : head ≠ 0) :
    ∃ ys, xs = head :: ys ∧ s.HasList c (s.stores.next head) ys := by
  obtain ⟨ys, same, rest⟩ := ((hasList_iff created).mp has).eq_cons some
  exact ⟨ys, same, (hasList_iff created).mpr rest⟩

/-- The link of a store does not matter to the method. -/
theorem invoked_setNext {loc : Nat} (st : Stores) (msg next b : Nat) :
    invoked loc (st.setNext msg next b) = invoked loc (st b) :=
  comp_update (invoked loc) (by rfl) b

theorem State.HasList.push (has : s.HasList c head xs) (created : s.rep c ≠ 0) (nonzero : msg ≠ 0)
    (outside : msg ∉ xs) (rep : t.rep c = s.rep c) (stores : t.stores = s.stores.setNext msg head) :
    t.HasList c msg (msg :: xs) := by
  rw [hasList_iff (rep ▸ created), stores, next_setNext]
  exact ((hasList_iff created).mp has).push nonzero outside

end

/-! ### Steps -/

section

variable {content : Place → List Nat} {v : Sending} {w : Handling} {p p' : Place} {a : Nat}
  {xs : List Nat}

/-- A step that moves no store. -/
theorem Placed.stay (placed : Placed s content) (rep : t.rep = s.rep)
    (allocated : t.allocated = s.allocated)
    (heads : ∀ a, (t.reps a).msgqueue = (s.reps a).msgqueue ∧
      (t.reps a).freelist = (s.reps a).freelist)
    (links : ∀ a, t.stores.next a = s.stores.next a)
    (hands : ∀ d, (t.sending d).store = (s.sending d).store ∧
      (t.handling d).store = (s.handling d).store)
    (filled : ∀ d ticket call target msg, t.sending d = .filled ticket call target msg →
      t.ticket msg = ticket ∧ invoked call.loc (t.stores msg) = some call) : Placed t content := by
  refine ⟨allocated ▸ placed.covers, ?_, allocated ▸ placed.nonzero, filled⟩
  rintro (d | d | d | d)
  · apply (placed.has (.queue d)).frame (congrFun rep d)
    · rw [rep]
      exact fun _ => (heads _).1
    · exact fun a _ => links a
  · apply (placed.has (.free d)).frame (congrFun rep d)
    · rw [rep]
      exact fun _ => (heads _).2
    · exact fun a _ => links a
  · exact (placed.has (.sender d)).trans (by rw [(hands d).1])
  · exact (placed.has (.handler d)).trans (by rw [(hands d).2])

/-- A step that moves a store from the front of one place to the front of another. -/
theorem Placed.shift (placed : Placed s content) (front : content p = a :: xs) (other : p ≠ p')
    (allocated : t.allocated = s.allocated) (source : t.Has p xs)
    (target : t.Has p' (a :: content p'))
    (others : ∀ r, r ≠ p → r ≠ p' → t.Has r (content r))
    (filled : ∀ d ticket call target msg, t.sending d = .filled ticket call target msg →
      t.ticket msg = ticket ∧ invoked call.loc (t.stores msg) = some call) :
    Placed t ((Move.shift p p').apply content) := by
  rw [apply_shift front]
  refine
    ⟨allocated ▸ placed.covers.move front other, fun r => ?_, allocated ▸ placed.nonzero, filled⟩
  by_cases new : r = p'
  · rw [new, move_target]
    exact target
  · by_cases old : r = p
    · rw [old, move_source other]
      exact source
    · rw [move_of_ne old new]
      exact others r old new

/-- A step of a sender that leaves the stores alone. -/
theorem Placed.send (placed : Placed s content)
    (moved : t.sending = Function.update s.sending c v ∧ t.handling = s.handling)
    (same : t.rep = s.rep ∧ t.allocated = s.allocated ∧ t.stores = s.stores ∧ t.ticket = s.ticket)
    (heads : ∀ a, (t.reps a).msgqueue = (s.reps a).msgqueue ∧
      (t.reps a).freelist = (s.reps a).freelist)
    (store : v.store = (s.sending c).store)
    (empty : ∀ ticket call target msg, v ≠ .filled ticket call target msg) : Placed t content := by
  obtain ⟨sending, handling⟩ := moved
  obtain ⟨rep, allocated, stores, ticket⟩ := same
  apply placed.stay rep allocated heads
  · rw [stores]
    exact fun _ => rfl
  · rw [sending, handling]
    exact fun d => ⟨comp_update Sending.store store d, rfl⟩
  · rw [sending, stores, ticket]
    intro d k call target msg at_
    by_cases mine : d = c
    · rw [mine, Function.update_self] at at_
      exact absurd at_ (empty k call target msg)
    · rw [Function.update_of_ne mine] at at_
      exact placed.filled d k call target msg at_

/-- A step of a handler that moves no store. -/
theorem Placed.handle (placed : Placed s content)
    (moved : t.handling = Function.update s.handling c w ∧ t.sending = s.sending)
    (same : t.rep = s.rep ∧ t.allocated = s.allocated ∧ t.stores = s.stores ∧ t.ticket = s.ticket)
    (heads : ∀ a, (t.reps a).msgqueue = (s.reps a).msgqueue ∧
      (t.reps a).freelist = (s.reps a).freelist)
    (store : w.store = (s.handling c).store) : Placed t content := by
  obtain ⟨handling, sending⟩ := moved
  obtain ⟨rep, allocated, stores, ticket⟩ := same
  apply placed.stay rep allocated heads
  · rw [stores]
    exact fun _ => rfl
  · rw [sending, handling]
    exact fun d => ⟨rfl, comp_update Handling.store store d⟩
  · rw [sending, stores, ticket]
    exact placed.filled

/-- A new representative has empty lists. -/
theorem State.HasList.create {repRef : Nat} (f : Rep → Nat) (empty : f (newRep c s.rootRefMM) = 0)
    (r : Ready s) (first : s.rep c = 0) (fresh : repRef ∉ s.objects) (nonzero : repRef ≠ 0)
    (has : s.HasList d (f (s.reps (s.rep d))) xs) :
    (s.create c repRef).HasList d
      (f ((s.create c repRef).reps ((s.create c repRef).rep d))) xs := by
  by_cases mine : d = c
  · subst mine
    rw [State.HasList, if_pos first] at has
    have rep : (s.create d repRef).rep d = repRef := Function.update_self ..
    have new : (s.create d repRef).reps repRef = newRep d s.rootRefMM := Function.update_self ..
    rw [rep, new, empty, has, hasList_iff (rep.symm ▸ nonzero)]
    rfl
  · have rep : (s.create c repRef).rep d = s.rep d := Function.update_of_ne mine ..
    rw [rep]
    exact has.frame rep (fun created => by rw [(r.roster.create_old first fresh created).2])
      fun _ _ => rfl

theorem Placed.create {repRef : Nat} (placed : Placed s content) (r : Ready s) (first : s.rep c = 0)
    (nonzero : repRef ≠ 0) (fresh : repRef ∉ s.objects) : Placed (s.create c repRef) content := by
  refine ⟨placed.covers, ?_, placed.nonzero, placed.filled⟩
  rintro (d | d | d | d)
  · exact (placed.has (.queue d)).create Rep.msgqueue rfl r first fresh nonzero
  · exact (placed.has (.free d)).create Rep.freelist rfl r first fresh nonzero
  · exact placed.has (.sender d)
  · exact placed.has (.handler d)

/-- The hand of a sender after a step of core `c`. -/
theorem Placed.has_sender (placed : Placed s content)
    (moved : t.sending = Function.update s.sending c v)
    (other : d ≠ c) : t.Has (.sender d) (content (.sender d)) := by
  rw [State.Has, moved, Function.update_of_ne other]
  exact placed.has (.sender d)

theorem Placed.has_handler (placed : Placed s content)
    (moved : t.handling = Function.update s.handling c w) (other : d ≠ c) :
    t.Has (.handler d) (content (.handler d)) := by
  rw [State.Has, moved, Function.update_of_ne other]
  exact placed.has (.handler d)

theorem Placed.malloc {ticket target msg : Nat} {call : Call} (placed : Placed s content)
    (at_ : s.sending c = .mallocing ticket call target) (nonzero : msg ≠ 0)
    (fresh : msg ∉ s.allocated) :
    Placed
      ({ s with allocated := msg :: s.allocated }.setSending c (.filling ticket call target msg))
      (put content (.sender c) (msg :: content (.sender c))) := by
  have empty : content (.sender c) = [] := by
    rw [show content (.sender c) = _ from placed.has (.sender c), at_]
    rfl
  refine ⟨placed.covers.add fresh, ?_, ?_, ?_⟩
  · rintro (d | d | d | d)
    · rw [put_of_ne (by simp)]
      exact placed.has (.queue d)
    · rw [put_of_ne (by simp)]
      exact placed.has (.free d)
    · by_cases mine : d = c
      · subst mine
        rw [put_self, empty, State.Has, setSending_self]
        rfl
      · rw [put_of_ne (by simp [mine])]
        exact placed.has_sender rfl mine
    · rw [put_of_ne (by simp)]
      exact placed.has (.handler d)
  · intro a there
    obtain rfl | there := List.mem_cons.mp there
    · exact nonzero
    · exact placed.nonzero a there
  · intro d k call' target' msg' at'
    by_cases mine : d = c
    · simp [mine] at at'
    · rw [setSending_of_ne mine] at at'
      exact placed.filled d k call' target' msg' at'

theorem next_fill {msg : Nat} {call : Call} :
    Stores.next (Function.update s.stores msg (call.fill c (s.stores msg))) = s.stores.next := by
  funext q
  exact comp_update MsgStore.next (by cases call <;> rfl) q

/-- The method gets the id and the arguments of the call. -/
theorem invoked_fill (call : Call) (msg : MsgStore) :
    invoked call.loc (call.fill c msg) = some call := by
  have one : (0 : Fin maxArgs) ≠ 1 := by decide
  have two : (0 : Fin maxArgs) ≠ 2 ∧ (1 : Fin maxArgs) ≠ 2 := by decide
  cases call <;> simp [invoked, Call.fill, Call.loc, one, two]

theorem Placed.fill {ticket target msg : Nat} {call : Call} (placed : Placed s content)
    (at_ : s.sending c = .filling ticket call target msg) :
    Placed ({ s with
      stores := Function.update s.stores msg (call.fill c (s.stores msg))
      ticket := Function.update s.ticket msg ticket }.setSending c
        (.filled ticket call target msg)) content := by
  refine placed.stay rfl rfl (fun _ => ⟨rfl, rfl⟩) ?_ ?_ ?_
  · exact fun a => congrFun next_fill a
  · exact fun d => ⟨comp_update Sending.store (by rw [at_]; rfl) d, rfl⟩
  · intro d k call' target' msg' at'
    by_cases mine : d = c
    · rw [mine, setSending_self] at at'
      cases at'
      exact ⟨Function.update_self ..,
        (congrArg _ (Function.update_self ..)).trans (invoked_fill call _)⟩
    · rw [setSending_of_ne mine] at at'
      have here : msg ∈ content (.sender c) := by
        rw [show content (.sender c) = _ from placed.has (.sender c), at_]
        exact List.mem_singleton_self msg
      have there : msg' ∈ content (.sender d) := by
        rw [show content (.sender d) = _ from placed.has (.sender d), at']
        exact List.mem_singleton_self msg'
      have other : msg' ≠ msg := by
        rintro rfl
        have same := placed.covers.apart _ _ _ here there
        cases same
        exact mine rfl
      simp only [State.setSending, Function.update_of_ne other]
      exact placed.filled d k call' target' msg' at'

/-- Only the freelist of `c` changes when the head of its freelist does. -/
theorem Ready.setFreelist_of_ne {q : Nat} (r : Ready s) (created : s.rep d ≠ 0) (other : d ≠ c) :
    (s.reps.setFreelist (s.rep c) q (s.rep d)).freelist = (s.reps (s.rep d)).freelist := by
  have apart : s.rep d ≠ s.rep c := fun same => other (r.roster.distinct same created)
  rw [Reps.setFreelist, Function.update_of_ne apart]

theorem Ready.setQueue_of_ne {q : Nat} (r : Ready s) (created : s.rep d ≠ 0) (other : d ≠ c) :
    (s.reps.setQueue (s.rep c) q (s.rep d)).msgqueue = (s.reps (s.rep d)).msgqueue := by
  have apart : s.rep d ≠ s.rep c := fun same => other (r.roster.distinct same created)
  rw [Reps.setQueue, Function.update_of_ne apart]

theorem Placed.sender_eq (placed : Placed s content) (at_ : s.sending c = v) :
    content (.sender c) = v.store.toList :=
  (placed.has (.sender c)).trans (by rw [at_])

theorem Placed.handler_eq (placed : Placed s content) (at_ : s.handling c = w) :
    content (.handler c) = w.store.toList :=
  (placed.has (.handler c)).trans (by rw [at_])

theorem Placed.popFree {ticket target : Nat} {call : Call} (placed : Placed s content) (r : Ready s)
    (at_ : s.sending c = .found ticket call target) (free : (s.reps (s.rep c)).freelist ≠ 0) :
    Placed ({ s with
        reps :=
          s.reps.setFreelist (s.rep c) (s.stores.next (s.reps (s.rep c)).freelist) }.setSending c
          (.filling ticket call target (s.reps (s.rep c)).freelist))
      ((Move.shift (.free c) (.sender c)).apply content) := by
  have created := (r.sender c (by simp [at_])).1
  obtain ⟨ys, front, rest⟩ := (placed.has (.free c)).pop created free
  refine placed.shift front (by simp) rfl ?_ ?_ ?_ ?_
  · exact rest.frame rfl (fun _ => setFreelist_self) fun _ _ => rfl
  · rw [placed.sender_eq at_, State.Has, setSending_self]
    rfl
  · rintro (d | d | d | d) source target
    · exact (placed.has (.queue d)).frame rfl (fun _ => setFreelist_msgqueue) fun _ _ => rfl
    · have other : d ≠ c := fun same => source (same ▸ rfl)
      exact (placed.has (.free d)).frame rfl (fun created => r.setFreelist_of_ne created other)
        fun _ _ => rfl
    · exact placed.has_sender rfl fun same => target (same ▸ rfl)
    · exact placed.has (.handler d)
  · intro d k call' target' msg' at'
    by_cases mine : d = c
    · simp [mine] at at'
    · rw [setSending_of_ne mine] at at'
      exact placed.filled d k call' target' msg' at'

/-- Pushing a store leaves the links in the other places alone. -/
theorem Placed.links {p : Place} {msg v : Nat} (placed : Placed s content)
    (here : msg ∈ content p) : ∀ p', p' ≠ p → ∀ a ∈ content p',
      (s.stores.setNext msg v).next a = s.stores.next a := by
  intro p' other a there
  rw [next_setNext]
  exact Function.update_of_ne
    (ne_of_mem_of_not_mem there (placed.covers.not_mem_of_ne here other.symm)) ..

theorem Placed.enqueueMsg {ticket msg : Nat} {call : Call} (placed : Placed s content) (r : Ready s)
    (at_ : s.sending c = .filled ticket call (s.rep call.loc) msg) (target : s.rep call.loc ≠ 0) :
    Placed ({ s with
        stores := s.stores.setNext msg (s.reps (s.rep call.loc)).msgqueue
        reps := s.reps.setQueue (s.rep call.loc) msg
        sent := (ticket, call) :: s.sent }.setSending c (.pushed ticket call))
      ((Move.shift (.sender c) (.queue call.loc)).apply content) := by
  have front : content (.sender c) = [msg] := placed.sender_eq at_
  have here : msg ∈ content (.sender c) := front ▸ List.mem_singleton_self msg
  have present : msg ∈ s.allocated := (placed.covers.mem_iff msg).mpr ⟨_, here⟩
  have links := placed.links (v := (s.reps (s.rep call.loc)).msgqueue) here
  refine placed.shift front (by simp) rfl ?_ ?_ ?_ ?_
  · rw [State.Has, setSending_self]
    rfl
  · have pushed := (placed.has (.queue call.loc)).push target (placed.nonzero msg present)
      (placed.covers.not_mem_of_ne here (by simp)) (t := { s with
        stores := s.stores.setNext msg (s.reps (s.rep call.loc)).msgqueue
        reps := s.reps.setQueue (s.rep call.loc) msg
        sent := (ticket, call) :: s.sent }.setSending c (.pushed ticket call)) rfl rfl
    exact pushed.frame rfl (fun _ => setQueue_self) fun _ _ => rfl
  · rintro (d | d | d | d) source target'
    · have other : d ≠ call.loc := fun same => target' (same ▸ rfl)
      exact (placed.has (.queue d)).frame rfl (fun created => r.setQueue_of_ne created other)
        (links _ source)
    · exact (placed.has (.free d)).frame rfl (fun _ => setQueue_freelist) (links _ source)
    · exact placed.has_sender rfl fun same => source (same ▸ rfl)
    · exact placed.has (.handler d)
  · intro d k call' target' msg' at'
    by_cases mine : d = c
    · simp [mine] at at'
    · rw [setSending_of_ne mine] at at'
      obtain ⟨same, method⟩ := placed.filled d k call' target' msg' at'
      exact ⟨same, (invoked_setNext ..).trans method⟩

theorem Placed.dequeueMsg (placed : Placed s content) (r : Ready s) (at_ : s.handling c = .draining)
    (queued : (s.reps (s.rep c)).msgqueue ≠ 0) :
    Placed ({ s with
        reps :=
          s.reps.setQueue (s.rep c) (s.stores.next (s.reps (s.rep c)).msgqueue) }.setHandling c
          (.dequeued (s.reps (s.rep c)).msgqueue))
      ((Move.shift (.queue c) (.handler c)).apply content) := by
  have created := r.handler c (by simp [at_])
  obtain ⟨ys, front, rest⟩ := (placed.has (.queue c)).pop created queued
  refine placed.shift front (by simp) rfl ?_ ?_ ?_ placed.filled
  · exact rest.frame rfl (fun _ => setQueue_self) fun _ _ => rfl
  · rw [placed.handler_eq at_, State.Has, setHandling_self]
    rfl
  · rintro (d | d | d | d) source target
    · have other : d ≠ c := fun same => source (same ▸ rfl)
      exact (placed.has (.queue d)).frame rfl (fun created => r.setQueue_of_ne created other)
        fun _ _ => rfl
    · exact (placed.has (.free d)).frame rfl (fun _ => setQueue_freelist) fun _ _ => rfl
    · exact placed.has (.sender d)
    · exact placed.has_handler rfl fun same => target (same ▸ rfl)

theorem Placed.pushFree {msg h : Nat} (placed : Placed s content) (r : Ready s)
    (at_ : s.handling c = .pushing msg (s.rep h)) (owner : s.rep h ≠ 0) :
    Placed ({ s with
        stores := s.stores.setNext msg (s.reps (s.rep h)).freelist
        reps := s.reps.setFreelist (s.rep h) msg }.setHandling c .draining)
      ((Move.shift (.handler c) (.free h)).apply content) := by
  have front : content (.handler c) = [msg] := placed.handler_eq at_
  have here : msg ∈ content (.handler c) := front ▸ List.mem_singleton_self msg
  have present : msg ∈ s.allocated := (placed.covers.mem_iff msg).mpr ⟨_, here⟩
  have links := placed.links (v := (s.reps (s.rep h)).freelist) here
  refine placed.shift front (by simp) rfl ?_ ?_ ?_ ?_
  · rw [State.Has, setHandling_self]
    rfl
  · have pushed := (placed.has (.free h)).push owner (placed.nonzero msg present)
      (placed.covers.not_mem_of_ne here (by simp)) (t := { s with
        stores := s.stores.setNext msg (s.reps (s.rep h)).freelist
        reps := s.reps.setFreelist (s.rep h) msg }.setHandling c .draining) rfl rfl
    exact pushed.frame rfl (fun _ => setFreelist_self) fun _ _ => rfl
  · rintro (d | d | d | d) source target
    · exact (placed.has (.queue d)).frame rfl (fun _ => setFreelist_msgqueue) (links _ source)
    · have other : d ≠ h := fun same => target (same ▸ rfl)
      exact (placed.has (.free d)).frame rfl (fun created => r.setFreelist_of_ne created other)
        (links _ source)
    · exact placed.has (.sender d)
    · exact placed.has_handler rfl fun same => source (same ▸ rfl)
  · intro d k call target' msg' at'
    obtain ⟨same, method⟩ := placed.filled d k call target' msg' at'
    exact ⟨same, (invoked_setNext ..).trans method⟩

theorem Placed.effect (placed : Placed s content) (r : Ready s) (effect : Effect s c m t) :
    Placed t (m.apply content) := by
  cases effect with
  | createRep first nonzero fresh => exact placed.create r first nonzero fresh
  | addRepOn =>
      exact placed.stay rfl rfl (fun _ => ⟨rfl, rfl⟩) (fun _ => rfl)
        (fun _ => ⟨rfl, rfl⟩) placed.filled
  | call can =>
      exact placed.send ⟨rfl, rfl⟩ ⟨rfl, rfl, rfl, rfl⟩ (fun _ => ⟨rfl, rfl⟩)
        (by rw [can.2.2.1]; rfl)
        (by simp)
  | noFree at_ | «return» at_ =>
      exact placed.send ⟨rfl, rfl⟩ ⟨rfl, rfl, rfl, rfl⟩ (fun _ => ⟨rfl, rfl⟩) (by rw [at_]; rfl)
        (by simp)
  | notFound at_ | found at_ =>
      exact placed.send ⟨rfl, rfl⟩ ⟨rfl, rfl, rfl, rfl⟩
        (fun _ => by simp [State.setSending, State.remember]) (by rw [at_]; rfl) (by simp)
  | handleEvent _ at_ | drained at_ | invoke at_ | handled at_ =>
      exact placed.handle ⟨rfl, rfl⟩ ⟨rfl, rfl, rfl, rfl⟩ (fun _ => ⟨rfl, rfl⟩) (by rw [at_]; rfl)
  | findHome at_ =>
      exact placed.handle ⟨rfl, rfl⟩ ⟨rfl, rfl, rfl, rfl⟩
        (fun _ => by simp [State.setHandling, State.remember]) (by rw [at_]; rfl)
  | malloc at_ nonzero fresh => exact placed.malloc at_ nonzero fresh
  | fill at_ => exact placed.fill at_
  | popFree at_ free => exact placed.popFree r at_ free
  | enqueueMsg at_ target => exact placed.enqueueMsg r at_ target
  | dequeueMsg at_ queued => exact placed.dequeueMsg r at_ queued
  | pushFree at_ owner => exact placed.pushFree r at_ owner

theorem Initial.placed (start : Initial s) : Placed s fun _ => [] where
  covers := by
    rw [start.allocated]
    exact covers_nil
  has := by
    rintro (d | d | d | d)
    · simp [State.Has, State.HasList, start.rep d]
    · simp [State.Has, State.HasList, start.rep d]
    · simp [State.Has, start.sending d, Sending.store]
    · simp [State.Has, start.handling d, Handling.store]
  nonzero a there := by simp [start.allocated] at there
  filled d _ _ _ _ at_ := by simp [start.sending d] at at_

end

end

end EBBLib.Delivery
