import EBBLib.Msg.Wakeup

/-!
# No wake-up is lost

A message in a queue has someone who cares for it: a sender that is about to set the
status, the status itself, or the handler, which acknowledges before it drains the
queue. The status in turn has a pending signal, a sender that is about to signal, or a
core that is going to look at it before it blocks.
-/

namespace EBBLib.Wakeup

open MsgMgrPrim

/-- From the moment in which the interrupt is disabled to the end of the dispatch. -/
def Pc.dispatching : Pc → Bool
  | .dispatch | .startAck | .starting | .ack | .dequeue | .handling | .enable | .finish => true
  | _ => false

/-- The core looks at the status, or clears it, before it blocks again. -/
def Pc.attentive : Pc → Bool
  | .testReset | .reset | .testIpi | .testEnabled | .disable | .dispatch | .startAck | .ack => true
  | _ => false

/-- The handler will attempt another dequeue. -/
def Pc.draining : Pc → Bool
  | .dequeue | .handling => true
  | _ => false

/-- What holds of a core at `p` with the pic `v`, where the representative has been
created, the queue holds a message, and some sender is about to set the status after
a push or about to signal. -/
structure LoopOk (p : Pc) (v : LPic) (created queued toSet toWake : Prop) : Prop where
  work : v.vector = .handleEvent → queued → v.ipiStatus ∨ toSet ∨ p.draining
  enabled : p ≠ .down → p.dispatching = false → v.enabled
  signalled : v.ipiStatus → v.pending ∨ toWake ∨ p.attentive
  installed : created ↔ v.vector = .handleEvent
  alive : created → p ≠ .down
  handler : p = .ack ∨ p.draining → created
  first : v.resetStatus ∨ p = .reset ∨ p = .startAck → v.vector ≠ .handleEvent
  reset : v.resetStatus → p = .pselect ∨ p = .testReset

/-- What a core does with its place and its pic alone. -/
inductive Turn (v : LPic) : Pc → Pc → LPic → Prop
  | interrupted : Turn v .pselect .testReset { v with pending := false }
  | ready : Turn v .pselect .testReset v
  | takeReset (set : v.resetStatus) : Turn v .testReset .reset { v with resetStatus := false }
  | noReset (clear : v.resetStatus = false) : Turn v .testReset .testIpi v
  | l0Start : Turn v .reset .reset { v with vector := .startEvent }
  | resetDone : Turn v .reset .testIpi v
  | ipi : Turn v .testIpi .testEnabled v
  | noIpi (clear : v.ipiStatus = false) : Turn v .testIpi .vectors v
  | on : Turn v .testEnabled .disable v
  | off (off : v.enabled = false) : Turn v .testEnabled .vectors v
  | disable : Turn v .disable .dispatch { v with enabled := false }
  | startEvent (vector : v.vector = .startEvent) : Turn v .dispatch .startAck v
  | handleEvent (vector : v.vector = .handleEvent) : Turn v .dispatch .ack v
  | startAck : Turn v .startAck .starting { v with ipiStatus := false }
  | startDone : Turn v .starting .enable v
  | ack : Turn v .ack .dequeue { v with ipiStatus := false }
  | handled : Turn v .handling .dequeue v
  | enable : Turn v .enable .finish { v with enabled := true }
  | finish : Turn v .finish .vectors { v with enabled := true }
  | vectorsDone : Turn v .vectors .pselect v

/-- What a step of the loop does. -/
inductive LoopSpec (s : State) (c : Nat) : Pc → State → Prop
  | turn {p p' : Pc} {v : LPic} (turn : Turn (s.lpics c) p p' v) :
      LoopSpec s c p ((s.setLPic c v).goto c p')
  | start : LoopSpec s c .down (({ s with lastid := max s.lastid c }.setLPic c { s.lpics c with
      enabled := true, resetStatus := true, pending := true }).goto c .pselect)
  | createRep {repRef : Nat} (first : s.rep c = 0) (nonzero : repRef ≠ 0)
      (fresh : ∀ d ≤ s.lastid, s.rep d ≠ repRef) :
      LoopSpec s c .starting ({ s with
        rep := Function.update s.rep c repRef
        reps := Function.update s.reps repRef (newRep c s.rootRefMM) }.setLPic c
          { s.lpics c with vector := .handleEvent })
  | addRepOn (created : s.rep c ≠ 0) :
      LoopSpec s c .starting { s with registered := Function.update s.registered c true }
  | take (queued : (s.reps (s.rep c)).msgqueue ≠ 0) (head : Nat) :
      LoopSpec s c .dequeue ({ s with reps := s.reps.setQueue (s.rep c) head }.goto c .handling)
  | drained (empty : (s.reps (s.rep c)).msgqueue = 0) : LoopSpec s c .dequeue (s.goto c .enable)

/-- What holds of core `c` with another place and another pic. -/
def State.LoopOk (s : State) (c : Nat) (p : Pc) (v : LPic) : Prop :=
  Wakeup.LoopOk p v (s.rep c ≠ 0) ((s.reps (s.rep c)).msgqueue ≠ 0)
    (∃ d, s.sending d = .setStatus c true) (∃ d, s.sending d = .wakeup c)

structure Awake (s : State) : Prop where
  loop : ∀ c, s.LoopOk c (s.pc c) (s.lpics c)
  started : ∀ c, s.pc c ≠ .down → c ≤ s.lastid
  registered : ∀ c, s.registered c → s.rep c ≠ 0
  eventLoc : ∀ c, s.rep c ≠ 0 → (s.reps (s.rep c)).eventLoc = c
  distinct : ∀ c d, s.rep c = s.rep d → s.rep c ≠ 0 → c = d

section

variable {s t : State} {c : Nat} {p p' : Pc} {v v' : LPic} {created queued toSet toWake : Prop}

/-- A step that leaves the pic alone. -/
theorem LoopSpec.walk (turn : Turn (s.lpics c) p p' (s.lpics c)) :
    LoopSpec s c p (s.goto c p') := by
  have moved := LoopSpec.turn turn
  rwa [State.setLPic, Function.update_eq_self] at moved

theorem loopStep_spec {act : Action} (here : s.pc c = p) (moved : loopStep s c p act = some t) :
    LoopSpec s c p t := by
  unfold loopStep at moved
  split at moved
  · obtain ⟨_, moved⟩ := Option.ite_none_right_eq_some.mp moved
    cases moved
    exact .start
  · obtain ⟨_, moved⟩ := Option.ite_none_right_eq_some.mp moved
    cases moved
    exact .turn .interrupted
  · cases moved
    exact .walk .ready
  · split at moved
    · rename_i set
      cases moved
      exact .turn (.takeReset set)
    · rename_i clear
      cases moved
      exact .walk (.noReset (Bool.not_eq_true _ ▸ clear))
  · cases moved
    have turn := LoopSpec.turn (s := s) (c := c) .l0Start
    have stays : (s.setLPic c { s.lpics c with vector := .startEvent }).goto c .reset =
        s.setLPic c { s.lpics c with vector := .startEvent } := by
      rw [State.goto, ← here]
      exact congrArg (fun pc => { s.setLPic c _ with pc }) (Function.update_eq_self c s.pc)
    rwa [stays] at turn
  · cases moved
    exact .walk .resetDone
  · cases moved
    split
    · exact .walk .ipi
    · rename_i clear
      exact .walk (.noIpi (Bool.not_eq_true _ ▸ clear))
  · cases moved
    split
    · exact .walk .on
    · rename_i off
      exact .walk (.off (Bool.not_eq_true _ ▸ off))
  · cases moved
    exact .turn .disable
  · split at moved
    · cases moved
    · rename_i vector
      cases moved
      exact .walk (.startEvent vector)
    · rename_i vector
      cases moved
      exact .walk (.handleEvent vector)
  · cases moved
    exact .turn .startAck
  · obtain ⟨⟨first, nonzero, fresh⟩, moved⟩ := Option.ite_none_right_eq_some.mp moved
    cases moved
    exact .createRep first nonzero fresh
  · obtain ⟨created, moved⟩ := Option.ite_none_right_eq_some.mp moved
    cases moved
    exact .addRepOn created
  · cases moved
    exact .walk .startDone
  · cases moved
    exact .turn .ack
  · by_cases empty : (s.reps (s.rep c)).msgqueue = 0
    · simp only [dequeueMsgHead, empty, ne_eq, not_true_eq_false, if_false] at moved
      cases moved
      exact .drained empty
    · simp only [dequeueMsgHead, ne_eq, empty, not_false_eq_true, if_true] at moved
      cases moved
      exact .take empty _
  · cases moved
    exact .walk .handled
  · cases moved
    exact .turn .enable
  · cases moved
    exact .turn .finish
  · cases moved
    exact .walk .vectorsDone
  · cases moved

theorem Turn.up (turn : Turn v p p' v') : p ≠ .down := by
  rintro rfl
  cases turn

theorem LoopOk.turn (ok : LoopOk p v created queued toSet toWake) (turn : Turn v p p' v') :
    LoopOk p' v' created queued toSet toWake where
  work := by
    have work := ok.work
    have first := ok.first
    cases turn <;> simp_all [Pc.draining]
  enabled := by
    have enabled := ok.enabled
    cases turn <;> simp_all [Pc.dispatching]
  signalled := by
    have signalled := ok.signalled
    have enabled := ok.enabled
    cases turn <;> simp_all [Pc.attentive, Pc.dispatching]
  installed := by
    have installed := ok.installed
    have first := ok.first
    cases turn <;> simp_all
  alive := by
    have alive := ok.alive
    cases turn <;> simp_all
  handler := by
    have installed := ok.installed
    have handler := ok.handler
    cases turn <;> simp_all [Pc.draining]
  first := by
    have first := ok.first
    have reset := ok.reset
    cases turn <;> simp_all
  reset := by
    have reset := ok.reset
    cases turn <;> simp_all

namespace Awake

theorem start (init : machine.init s) : Awake s := by
  obtain ⟨down, idle, none, unregistered, clear⟩ := init
  constructor
  · intro c
    rw [down c, clear c, State.LoopOk, none c]
    constructor <;> simp [Pc.draining]
  · exact fun c up => absurd (down c) up
  · intro c isRegistered
    rw [unregistered c] at isRegistered
    cases isRegistered
  · exact fun c created => absurd (none c) created
  · exact fun c d _ created => absurd (none c) created

/-- A step of the loop of `c`, which does not touch the other cores. -/
theorem turn (a : Awake s) (started : p ≠ .down → c ≤ s.lastid) (own : s.LoopOk c p v) :
    Awake ((s.setLPic c v).goto c p) := by
  refine ⟨?_, ?_, a.registered, a.eventLoc, a.distinct⟩
  · intro d
    show s.LoopOk d (Function.update s.pc c p d) (Function.update s.lpics c v d)
    by_cases mine : d = c
    · rw [mine, Function.update_self, Function.update_self]
      exact own
    · rw [Function.update_of_ne mine, Function.update_of_ne mine]
      exact a.loop d
  · intro d
    show Function.update s.pc c p d ≠ .down → d ≤ s.lastid
    by_cases mine : d = c
    · rw [mine, Function.update_self]
      exact started
    · rw [Function.update_of_ne mine]
      exact a.started d

/-- A step of the loop that changes only the place of its core. -/
theorem walk (a : Awake s) (up : s.pc c ≠ .down) (own : s.LoopOk c p (s.lpics c)) :
    Awake (s.goto c p) := by
  have moved := a.turn (fun _ => a.started c up) own
  rwa [State.setLPic, Function.update_eq_self] at moved

theorem grow {n : Nat} (a : Awake s) (later : s.lastid ≤ n) : Awake { s with lastid := n } :=
  ⟨a.loop, fun c up => Nat.le_trans (a.started c up) later, a.registered, a.eventLoc, a.distinct⟩

/-- The representative of a core is not the one of another core. -/
theorem apart (a : Awake s) {d : Nat} (created : s.rep c ≠ 0) (other : d ≠ c) :
    s.rep d ≠ s.rep c :=
  fun same => other (a.distinct c d same.symm created).symm

theorem createRep {repRef : Nat} (a : Awake s) (here : s.pc c = .starting) (first : s.rep c = 0)
    (nonzero : repRef ≠ 0) (fresh : ∀ d ≤ s.lastid, s.rep d ≠ repRef) :
    Awake ({ s with
      rep := Function.update s.rep c repRef
      reps := Function.update s.reps repRef (newRep c s.rootRefMM) }.setLPic c
        { s.lpics c with vector := .handleEvent }) := by
  have up : s.pc c ≠ .down := by simp [here]
  have unused : ∀ d, s.rep d ≠ repRef := by
    intro d same
    have created : s.rep d ≠ 0 := same ▸ nonzero
    exact fresh d (a.started d ((a.loop d).alive created)) same
  have old : ∀ d, d ≠ c → Function.update s.rep c repRef d = s.rep d :=
    fun d other => Function.update_of_ne other ..
  have keeps : ∀ d, Function.update s.reps repRef (newRep c s.rootRefMM) (s.rep d) =
      s.reps (s.rep d) := fun d => Function.update_of_ne (unused d) ..
  refine ⟨?_, a.started, ?_, ?_, ?_⟩
  · intro d
    by_cases mine : d = c
    · have ok := a.loop c
      subst mine
      rw [State.LoopOk, here] at ok
      obtain ⟨work, enabled, signalled, installed, alive, handler, first, reset⟩ := ok
      simp only [State.LoopOk, State.setLPic, Function.update_self, here]
      constructor <;> simp_all [newRep, Pc.dispatching, Pc.attentive]
    · simp only [State.LoopOk, State.setLPic, Function.update_of_ne mine, keeps]
      exact a.loop d
  · intro d isRegistered
    show Function.update s.rep c repRef d ≠ 0
    by_cases mine : d = c
    · rw [mine, Function.update_self]
      exact nonzero
    · rw [old d mine]
      exact a.registered d isRegistered
  · intro d
    show Function.update s.rep c repRef d ≠ 0 →
      (Function.update s.reps repRef _ (Function.update s.rep c repRef d)).eventLoc = d
    by_cases mine : d = c
    · rw [mine, Function.update_self, Function.update_self]
      exact fun _ => rfl
    · rw [old d mine, keeps]
      exact a.eventLoc d
  · intro d e
    show Function.update s.rep c repRef d = Function.update s.rep c repRef e →
      Function.update s.rep c repRef d ≠ 0 → d = e
    by_cases mine : d = c <;> by_cases mine' : e = c
    · exact fun _ _ => mine.trans mine'.symm
    · rw [mine, Function.update_self, old e mine']
      exact fun same _ => absurd same.symm (unused e)
    · rw [mine', Function.update_self, old d mine]
      exact fun same _ => absurd same (unused d)
    · rw [old d mine, old e mine']
      exact a.distinct d e

/-- Messages are taken from the queue of `c` only. -/
theorem setQueue {head : Nat} (a : Awake s) (created : s.rep c ≠ 0)
    (own : LoopOk (s.pc c) (s.lpics c) (s.rep c ≠ 0) (head ≠ 0)
      (∃ d, s.sending d = .setStatus c true) (∃ d, s.sending d = .wakeup c)) :
    Awake { s with reps := s.reps.setQueue (s.rep c) head } := by
  refine ⟨?_, a.started, a.registered, ?_, a.distinct⟩
  · intro d
    by_cases mine : d = c
    · subst mine
      simpa only [State.LoopOk, Reps.setQueue, Function.update_self] using own
    · simpa only [State.LoopOk, Reps.setQueue, Function.update_of_ne (a.apart created mine)]
        using a.loop d
  · intro d created'
    by_cases mine : d = c
    · subst mine
      simpa only [Reps.setQueue, Function.update_self] using a.eventLoc d created
    · simpa only [Reps.setQueue, Function.update_of_ne (a.apart created mine)]
        using a.eventLoc d created'

theorem loopStep (a : Awake s) (here : s.pc c = p) (spec : LoopSpec s c p t) : Awake t := by
  have ok := a.loop c
  rw [here] at ok
  cases spec with
  | turn turn => exact a.turn (fun _ => a.started c (here ▸ turn.up)) (ok.turn turn)
  | start =>
      have unready : s.rep c = 0 := by
        by_contra created
        exact ok.alive created rfl
      refine (a.grow (Nat.le_max_left ..)).turn (fun _ => Nat.le_max_right ..) ?_
      obtain ⟨work, enabled, signalled, installed, alive, handler, first, reset⟩ := ok
      constructor <;> simp_all [Pc.dispatching, Pc.attentive, Pc.draining]
  | createRep first nonzero fresh => exact a.createRep here first nonzero fresh
  | addRepOn created =>
      refine ⟨a.loop, a.started, ?_, a.eventLoc, a.distinct⟩
      intro d isRegistered
      by_cases mine : d = c
      · exact mine ▸ created
      · apply a.registered d
        simpa [Function.update_of_ne mine] using isRegistered
  | take queued head =>
      have created := ok.handler (.inr rfl)
      have up : s.pc c ≠ .down := by
        rw [here]
        exact ok.alive created
      obtain ⟨work, enabled, signalled, installed, alive, handler, first, reset⟩ := ok
      have handling : Awake (s.goto c .handling) := by
        apply a.walk up
        constructor <;> simp_all [Pc.dispatching, Pc.attentive, Pc.draining]
      apply handling.setQueue created
      have own := handling.loop c
      simp only [State.goto, Function.update_self] at own ⊢
      exact { own with work := fun _ _ => .inr (.inr rfl) }
  | drained empty =>
      have up : s.pc c ≠ .down := by
        rw [here]
        exact ok.alive (ok.handler (.inr rfl))
      apply a.walk up
      obtain ⟨work, enabled, signalled, installed, alive, handler, first, reset⟩ := ok
      constructor <;> simp_all [Pc.dispatching, Pc.attentive, Pc.draining]

/-- A step of `lrt_pic_ipi` on core `c`. It raises flags of `target` only, and every flag
that it was about to raise is raised, or will be. -/
theorem raise {x : Sending} {ipiStatus pending : Bool} (a : Awake s) (target : Nat)
    (status : (s.lpics target).ipiStatus → ipiStatus) (signal : (s.lpics target).pending → pending)
    (toSet : ∀ d, s.sending c = .setStatus d true → s.rep d ≠ 0 →
      d = target ∧ ipiStatus ∨ x = .setStatus d true)
    (toWake : ∀ d, s.sending c = .wakeup d → d = target ∧ pending)
    (follows : ipiStatus → (s.lpics target).ipiStatus ∨ x = .wakeup target) :
    Awake ((s.setLPic target { s.lpics target with ipiStatus, pending }).setSending c x) := by
  refine ⟨fun d => ?_, a.started, a.registered, a.eventLoc, a.distinct⟩
  have ok := a.loop d
  -- The flags of core `d` afterwards.
  have flags : ∃ w, Function.update s.lpics target { s.lpics target with ipiStatus, pending } d =
      w ∧
      w.vector = (s.lpics d).vector ∧ w.enabled = (s.lpics d).enabled ∧
      w.resetStatus = (s.lpics d).resetStatus ∧
      ((s.lpics d).ipiStatus ∨ d = target ∧ ipiStatus → w.ipiStatus) ∧
      ((s.lpics d).pending ∨ d = target ∧ pending → w.pending) ∧
      (w.ipiStatus → (s.lpics d).ipiStatus ∨ d = target ∧ ipiStatus) := by
    refine ⟨_, rfl, ?_⟩
    by_cases here : d = target
    · subst here
      simpa [or_imp] using ⟨status, signal, fun set => .inr set⟩
    · simp [here]
  obtain ⟨w, there, vector, enabled, resetStatus, status', signal', follows'⟩ := flags
  -- The others that are sending go on.
  have sends : ∀ {y}, (∃ e, s.sending e = y) →
      s.sending c = y ∨ ∃ e, Function.update s.sending c x e = y := by
    rintro y ⟨e, same⟩
    by_cases mine : e = c
    · exact .inl (mine ▸ same)
    · exact .inr ⟨e, (Function.update_of_ne mine ..).trans same⟩
  have now : ∀ {y}, x = y → ∃ e, Function.update s.sending c x e = y :=
    fun same => ⟨c, (Function.update_self ..).trans same⟩
  have wakes : (s.lpics d).ipiStatus → w.pending ∨
      (∃ e, Function.update s.sending c x e = .wakeup d) ∨ (s.pc d).attentive := by
    intro set
    obtain waiting | waking | attentive := ok.signalled set
    · exact .inl (signal' (.inl waiting))
    · obtain mine | other := sends waking
      · exact .inl (signal' (.inr (toWake d mine)))
      · exact .inr (.inl other)
    · exact .inr (.inr attentive)
  show Wakeup.LoopOk (s.pc d) (Function.update s.lpics target _ d) _ _ _ _
  rw [there]
  constructor
  · intro handler queued
    rw [vector] at handler
    obtain set | pushing | draining := ok.work handler queued
    · exact .inl (status' (.inl set))
    · obtain mine | other := sends pushing
      · obtain raised | still := toSet d mine (ok.installed.mpr handler)
        · exact .inl (status' (.inr raised))
        · exact .inr (.inl (now still))
      · exact .inr (.inl other)
    · exact .inr (.inr draining)
  · rw [enabled]
    exact ok.enabled
  · intro set
    obtain old | ⟨rfl, raised⟩ := follows' set
    · exact wakes old
    · obtain old | waking := follows raised
      · exact wakes old
      · exact .inr (.inl (now waking))
  · rw [vector]
    exact ok.installed
  · exact ok.alive
  · exact ok.handler
  · rw [vector, resetStatus]
    exact ok.first
  · rw [resetStatus]
    exact ok.reset

/-- A step of `lrt_pic_ipi` that raises no flag. -/
theorem setSending {x : Sending} (a : Awake s)
    (toSet : ∀ d, s.sending c = .setStatus d true → s.rep d = 0)
    (toWake : ∀ d, s.sending c ≠ .wakeup d) : Awake (s.setSending c x) := by
  have raised := a.raise (c := c) (x := x) c id id
    (fun d at_ created => absurd (toSet d at_) created) (fun d at_ => absurd at_ (toWake d)) .inl
  rwa [State.setLPic, Function.update_eq_self] at raised

/-- A core that is in no `lrt_pic_ipi` starts one. -/
theorem dispatchIPI {x : Sending} (a : Awake s) (idle : s.sending c = .idle) :
    Awake (s.setSending c x) := by
  apply a.setSending <;> simp [idle]

/-- What is in the stores does not matter, only whether a queue is empty. -/
theorem write (a : Awake s) (stores : Stores) : Awake { s with stores } :=
  ⟨a.loop, a.started, a.registered, a.eventLoc, a.distinct⟩

theorem enqueue (a : Awake s) (target msg : Nat) (idle : s.sending c = .idle)
    (created : s.rep target ≠ 0) :
    Awake (if (s.reps (s.rep target)).msgqueue = 0 then
        { s with reps := s.reps.setQueue (s.rep target) msg }.setSending c (.setStatus target true)
      else { s with reps := s.reps.setQueue (s.rep target) msg }) := by
  split
  · have sends : Awake (s.setSending c (.setStatus target true)) := a.dispatchIPI idle
    have ok := sends.loop target
    exact sends.setQueue created
      { ok with work := fun _ _ => .inr (.inl ⟨c, Function.update_self ..⟩) }
  · rename_i some
    have ok := a.loop target
    exact a.setQueue created { ok with work := fun handler _ => ok.work handler some }

theorem sendStep {act : Action} (a : Awake s) (moved : step s c act = some t) : Awake t := by
  unfold step at moved
  split at moved
  · -- write
    obtain ⟨_, moved⟩ := Option.ite_none_right_eq_some.mp moved
    cases moved
    exact a.write _
  · -- enqueue
    rename_i target msg
    obtain ⟨⟨⟨_, idle⟩, isRegistered, _⟩, moved⟩ := Option.ite_none_right_eq_some.mp moved
    have created := a.registered target isRegistered
    have location : (s.reps.setQueue (s.rep target) msg (s.rep target)).eventLoc = target := by
      rw [Reps.setQueue, Function.update_self]
      exact a.eventLoc target created
    simp only [enqueueMsg, location, decide_eq_true_eq, Option.some.injEq] at moved
    subst moved
    exact (a.write (s.stores.setNext msg (s.reps (s.rep target)).msgqueue)).enqueue target msg idle
      created
  · -- dispatchIPI
    obtain ⟨⟨_, idle⟩, moved⟩ := Option.ite_none_right_eq_some.mp moved
    cases moved
    exact a.dispatchIPI idle
  · -- setStatus
    split at moved
    · rename_i target pushed at_
      split at moved
      · rename_i past
        cases moved
        apply a.setSending
        · rw [at_]
          rintro d ⟨⟩
          by_contra created
          exact absurd (a.started target ((a.loop target).alive created)) (Nat.not_le_of_lt past)
        · simp [at_]
      · obtain ⟨_, moved⟩ := Option.ite_none_left_eq_some.mp moved
        cases moved
        apply a.raise target (fun _ => rfl) id
        · rw [at_]
          rintro d ⟨⟩ _
          exact .inl ⟨rfl, rfl⟩
        · simp [at_]
        · exact fun _ => .inr rfl
    · cases moved
  · -- wakeup
    split at moved
    · rename_i target at_
      cases moved
      exact a.raise target id (fun _ => rfl) (by simp [at_]) (by simp [at_]) .inl
    · cases moved
  · -- vecon
    rename_i target
    obtain ⟨⟨⟨_, idle⟩, _⟩, moved⟩ := Option.ite_none_right_eq_some.mp moved
    cases moved
    have raised := a.raise (x := s.sending c) target id (fun _ => rfl) (fun d at_ _ => .inr at_)
      (by simp [idle]) .inl
    simpa only [State.setSending, State.setLPic, Function.update_eq_self] using raised
  · obtain ⟨_, moved⟩ := Option.ite_none_right_eq_some.mp moved
    exact a.loopStep rfl (loopStep_spec rfl moved)

theorem reach (run : machine.Reach s) : Awake s := by
  apply run.invariant (I := Awake)
  · exact fun s init => start init
  · rintro s ⟨c, act⟩ t _ a _ moved
    exact a.sendStep moved

end Awake

/-- What no wake-up being lost means for one core. -/
structure NoLostWakeup (s : State) (c : Nat) : Prop where
  /-- Somebody cares for a message in the queue. -/
  cared : (s.lpics c).vector = .handleEvent → (s.reps (s.rep c)).msgqueue ≠ 0 →
    (s.lpics c).ipiStatus ∨ (∃ d, s.sending d = .setStatus c true) ∨ (s.pc c).draining
  enabled : s.pc c ≠ .down → (s.pc c).dispatching = false → (s.lpics c).enabled
  /-- The core does not sleep. -/
  awake : s.pc c = .pselect → (s.lpics c).ipiStatus →
    (s.lpics c).pending ∨ ∃ d, s.sending d = .wakeup c

theorem no_lost_wakeup (run : machine.Reach s) (c : Nat) : NoLostWakeup s c := by
  have ok := (Awake.reach run).loop c
  refine ⟨ok.work, ok.enabled, fun here set => ?_⟩
  obtain pending | waking | attentive := ok.signalled set
  · exact .inl pending
  · exact .inr waking
  · rw [here] at attentive
    cases attentive

/-- A core starts and sends itself a message, which waits for the next interrupt. -/
theorem no_lost_wakeup_sample : ∃ s, machine.Reach s ∧ s.pc 0 = .pselect ∧
    (s.reps (s.rep 0)).msgqueue = 7 ∧ NoLostWakeup s 0 := by
  let s : State := {
    stores := fun _ => ⟨0, 0, 0, 0, fun _ => 0⟩, reps := fun _ => newRep 0 0, rootRefMM := 0
    rep := fun _ => 0, registered := fun _ => false, lastid := 0
    lpics := fun _ => ⟨.null, false, false, false, false⟩
    pc := fun _ => .down, sending := fun _ => .idle }
  have ran : (machine.exec s
      [(0, .start), (0, .interrupted), (0, .testReset), (0, .l0Start), (0, .dispatchIPI 0),
        (0, .setStatus), (0, .wakeup), (0, .resetDone), (0, .testIpi), (0, .testEnabled),
        (0, .disable), (0, .dispatch), (0, .ackIpi), (0, .createRep 5), (0, .addRepOn),
          (0, .enqueue 0 7),
        (0, .setStatus), (0, .wakeup), (0, .startDone), (0, .enableIpi), (0, .finish),
        (0, .vectorsDone)]).map (fun s => (s.pc 0, (s.reps (s.rep 0)).msgqueue)) =
      some (.pselect, 7) := by rfl
  obtain ⟨t, ran, final⟩ := Option.map_eq_some_iff.mp ran
  simp only [Prod.mk.injEq] at final
  have run : machine.Reach t :=
    Machine.reachVia_of_execVia
      ⟨fun _ => rfl, fun _ => rfl, fun _ => rfl, fun _ => rfl, fun _ => rfl⟩ ran
  exact ⟨t, run, final.1, final.2, no_lost_wakeup run 0⟩

end

end EBBLib.Wakeup
