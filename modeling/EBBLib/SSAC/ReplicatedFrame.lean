import EBBLib.SSAC.ReplicatedClients

/-!
# What a client leaves alone

The sizes of the caches never change, and a step of a client changes the ids of entries on its
own processor only. This needs no invariant.
-/

namespace EBBLib.SSACSimpleReplicatedArray

open SSACSimpleSharedArray (CacheObjectIdSimple CacheEntrySimple GetType PutFlag Store entryAt
  flushes)
open SSACSimpleSharedArray.CacheObjectIdSimple
open SSACSimpleSharedArray.HashQueues (search lruentry)

/-- The ids in a queue. -/
def SSAC.ids (c : SSAC) (vp i : Nat) : List CacheObjectIdSimple :=
  (c.queue vp i).entries.map CacheEntrySimple.id

/-- The caches have the same sizes, and the same ids outside of some processors. -/
structure SSAC.Frame (moved : Nat → Prop) (c c' : SSAC) : Prop where
  numproc : c'.numproc = c.numproc
  numhashqs : c'.numhashqs = c.numhashqs
  associativity : c'.associativity = c.associativity
  ids : ∀ vp i, ¬ moved vp → c'.ids vp i = c.ids vp i

section

variable {c c' c'' : SSAC} {moved : Nat → Prop} {vp i j k n : Nat} {e : CacheEntrySimple}
  {d : DirEntry} {id : CacheObjectIdSimple} {store store' : Store}

namespace SSAC.Frame

theorem refl : SSAC.Frame moved c c := ⟨rfl, rfl, rfl, fun _ _ _ => rfl⟩

theorem trans (h : SSAC.Frame moved c c') (h' : SSAC.Frame moved c' c'') :
    SSAC.Frame moved c c'' where
  numproc := h'.numproc.trans h.numproc
  numhashqs := h'.numhashqs.trans h.numhashqs
  associativity := h'.associativity.trans h.associativity
  ids vp i still := (h'.ids vp i still).trans (h.ids vp i still)

theorem home (h : SSAC.Frame moved c c') : c'.home id = c.home id := by
  rw [SSAC.home, SSAC.home, h.numhashqs]

theorem setDir : SSAC.Frame moved c (c.setDir i k d) :=
  ⟨rfl, rfl, rfl, fun vp i _ => by rw [SSAC.ids, queue_setDir, SSAC.ids]⟩

/-- Another entry with the same id. -/
theorem setSame (same : e.id = (c.slot vp i j).id) :
    SSAC.Frame moved c (c.setQueue vp i ⟨n, (c.queue vp i).entries.set j e⟩) := by
  refine ⟨rfl, rfl, rfl, fun vp' i' _ => ?_⟩
  rw [SSAC.ids, queue_setQueue]
  split_ifs with there
  · rw [there.1, there.2, SSAC.ids, List.map_set, same, SSAC.slot, entryAt]
    by_cases bound : j < (c.queue vp i).entries.length
    · rw [List.getD_eq_getElem?_getD, List.getElem?_eq_getElem bound, Option.getD_some]
      have bound : j < ((c.queue vp i).entries.map CacheEntrySimple.id).length := by
        simpa using bound
      simpa using List.set_getElem_self bound
    · rw [List.set_eq_of_length_le]
      simpa using bound
  · rfl

theorem setEntry (same : e.id = (c.slot vp i j).id) : SSAC.Frame moved c (c.setEntry vp i j e) :=
  .setSame same

/-- An entry of the processor. -/
theorem setHere : SSAC.Frame (· = vp) c (c.setEntry vp i j e) := by
  refine ⟨rfl, rfl, rfl, fun vp' i' still => ?_⟩
  rw [SSAC.ids, SSAC.setEntry, queue_setQueue, if_neg fun both => still both.1, SSAC.ids]

end SSAC.Frame

/-! ### The functions of the cache -/

theorem onCopies_frame {f : CacheEntrySimple → CacheEntrySimple} {vps : List Nat}
    (done : onCopies f id vps c = some c') (keeps : ∀ e, (f e).id = e.id) :
    SSAC.Frame moved c c' := by
  induction vps generalizing c with
  | nil => exact Option.some.inj done ▸ .refl
  | cons vp vps ih =>
      obtain ⟨j, _, rest⟩ := Option.bind_eq_some_iff.mp done
      exact .trans (.setSame (keeps _)) (ih rest)

theorem own_frame {type : GetType} {direntry : Option Nat}
    (done : own c vp id type j direntry = some c') : SSAC.Frame moved c c' := by
  cases type with
  | getForRead => exact Option.some.inj done ▸ .refl
  | getForWrite =>
      obtain ⟨k, _, done⟩ := Option.bind_eq_some_iff.mp done
      obtain ⟨m, copies, rfl⟩ := Option.map_eq_some_iff.mp done
      refine (onCopies_frame copies fun _ => rfl).trans (.trans (.setEntry ?_) .setDir)
      rfl

theorem hand_frame {type : GetType} {direntry : Option Nat}
    (done : hand c vp id type j direntry = some c') : SSAC.Frame moved c c' := by
  obtain ⟨m, owned, touched⟩ := Option.bind_eq_some_iff.mp done
  rw [touch] at touched
  split_ifs at touched
  cases touched
  exact .trans (own_frame owned) (.setSame rfl)

theorem clean_frame {c' : SSAC × Store} (done : clean c store vp i j = some c') :
    SSAC.Frame moved c c'.1 := by
  rw [clean] at done
  split_ifs at done
  · obtain ⟨r, removed, rfl⟩ := Option.map_eq_some_iff.mp done
    obtain ⟨k, _, rfl⟩ := Option.map_eq_some_iff.mp removed
    dsimp only
    split_ifs <;> exact .setDir
  · cases done
    exact .refl

theorem fill_frame {direntry : Option Nat} (done : fill c store vp id j direntry = some c') :
    SSAC.Frame (· = vp) c c' := by
  cases direntry with
  | some k =>
      obtain ⟨copy, _, rfl⟩ := Option.map_eq_some_iff.mp done
      exact .trans .setHere .setDir
  | none =>
      obtain ⟨k, _, rfl⟩ := Option.map_eq_some_iff.mp done
      exact .trans .setHere .setDir

theorem miss_frame {type : GetType} {g : Got × SSAC × Store}
    (done : miss c store vp id type = some g) : SSAC.Frame (· = vp) c g.2.1 := by
  rw [miss] at done
  split_ifs at done
  · cases done
    exact .refl
  · cases victim : lruentry (c.queue vp (c.home id)).entries with
    | none =>
        rw [victim] at done
        cases done
        exact .refl
    | some j =>
        rw [victim] at done
        obtain ⟨m, cleaned, done⟩ := Option.bind_eq_some_iff.mp done
        obtain ⟨m', filled, done⟩ := Option.bind_eq_some_iff.mp done
        obtain ⟨m'', handed, rfl⟩ := Option.map_eq_some_iff.mp done
        exact .trans (clean_frame cleaned) (.trans (fill_frame filled) (hand_frame handed))

theorem getFirst_frame {type : GetType} {g : Got × SSAC × Store}
    (done : getFirst c store vp id type = some g) : SSAC.Frame (· = vp) c g.2.1 := by
  unfold getFirst at done
  split at done
  · split_ifs at done
    · cases done
      exact .refl
    · obtain ⟨m, handed, rfl⟩ := Option.map_eq_some_iff.mp done
      exact hand_frame handed
  · cases type with
    | getForRead =>
        cases done
        exact .refl
    | getForWrite => exact miss_frame done

theorem getSecond_frame {type : GetType} {direntry : Option Nat} {g : Got × SSAC × Store}
    (done : getSecond c store vp id type direntry = some g) : SSAC.Frame (· = vp) c g.2.1 := by
  rw [getSecond] at done
  split at done
  · split_ifs at done
    · cases done
      exact .refl
    · obtain ⟨m, handed, rfl⟩ := Option.map_eq_some_iff.mp done
      exact hand_frame handed
  · exact miss_frame done

theorem putback_frame {q : Nat} {flag : PutFlag} (done : putback c vp q j flag = some c') :
    SSAC.Frame moved c c' := by
  obtain ⟨k, _, done⟩ := Option.bind_eq_some_iff.mp done
  obtain ⟨m, copies, rfl⟩ := Option.map_eq_some_iff.mp done
  refine .trans (.setEntry ?_) ((onCopies_frame copies fun _ => rfl).trans
    (.trans (.setEntry ?_) .setDir)) <;> rfl

end

/-! ### The steps -/

section

variable {on : Nat → Nat} {s t : State} {action : Action} {c : Nat}

/-- The client that makes a step. -/
def Action.client : Action → Nat
  | .get c _ _ | .attempt c | .write c _ | .putback c _ | .flush c | .scan c | .save c
  | .clear c => c

theorem attempt_frame {g : Got × SSAC × Store} (attempted : s.attempt on c = some g) :
    SSAC.Frame (· = on c) s.cache g.2.1 := by
  cases at_ : s.pc c <;> simp only [State.attempt, at_, reduceCtorEq] at attempted
  · exact getFirst_frame attempted
  · exact getSecond_frame attempted

theorem step_frame (moved : s.step on action = some t) :
    SSAC.Frame (· = on action.client) s.cache t.cache := by
  cases action with
  | attempt c =>
      obtain ⟨_, _, moved⟩ := Option.bind_eq_some_iff.mp moved
      obtain ⟨g, attempted, rfl⟩ := Option.map_eq_some_iff.mp moved
      exact attempt_frame attempted
  | putback c flag =>
      cases at_ : s.pc c <;> simp only [State.step, at_, reduceCtorEq] at moved
      obtain ⟨m, done, rfl⟩ := Option.map_eq_some_iff.mp moved
      exact putback_frame done
  | get c id type =>
      cases at_ : s.pc c <;> simp only [State.step, at_, reduceCtorEq] at moved
      split_ifs at moved
      cases moved
      exact .refl
  | scan c =>
      cases at_ : s.pc c <;> simp only [State.step, at_, reduceCtorEq] at moved
      split_ifs at moved
      · split at moved
        · cases moved
          exact .refl
        · cases moved
          exact .setEntry rfl
      · cases moved
        exact .refl
  | write c v =>
      cases at_ : s.pc c <;> simp only [State.step, at_, reduceCtorEq] at moved
      cases moved
      exact .setEntry rfl
  | clear c =>
      cases at_ : s.pc c <;> simp only [State.step, at_, reduceCtorEq] at moved
      cases moved
      exact .setEntry rfl
  | flush c | save c =>
      cases at_ : s.pc c <;> simp only [State.step, at_, reduceCtorEq] at moved
      cases moved
      exact .refl

/-- The sizes stay as the constructor has set them. -/
theorem reach_sizes {n a p : Nat} {ok : State → Action → Prop}
    (reached : (machine n a p on).ReachVia ok s) :
    s.cache.numproc = p ∧ s.cache.numhashqs = n ∧ s.cache.associativity = a := by
  induction reached with
  | init start => exact start.1 ▸ ⟨rfl, rfl, rfl⟩
  | step _ _ moved ih =>
      have frame := step_frame moved
      exact ⟨frame.numproc.trans ih.1, frame.numhashqs.trans ih.2.1,
        frame.associativity.trans ih.2.2⟩

end

end EBBLib.SSACSimpleReplicatedArray
