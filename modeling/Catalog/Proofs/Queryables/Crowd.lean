import Catalog.Proofs.Queryables.Refresh
import Mathlib.Logic.Relation

/-!
# Accesses that overlap

Any number of callers read the fields or warm the cache at the same time. In each move one of them
takes an atomic step, is handed an answer of the schema or gives up, or the fields are marked as
stale or forgotten, which takes no lock, or else time passes. A log has the calls to the schema that
were started, the answers, and what became of the snapshot.
-/

namespace Catalog

/-- Something that happens in a crowd. -/
inductive Deed where
  /-- A call to the schema is started on behalf of a caller with this purpose. -/
  | asked (purpose : Purpose)
  /-- The schema has answered, or has failed to. -/
  | heard (answer : Option Schema)
  /-- An answer was put into the snapshot. -/
  | published (answer : Schema)
  /-- The fields were marked as stale. -/
  | marked
  | forgotten
  deriving DecidableEq, Repr

/-- Somebody whose access has not ended. -/
structure Caller where
  purpose : Purpose
  phase : Phase

/-- What the next step of a caller adds to the log. -/
def Caller.deeds (x : Caller) : List Deed :=
  match x.phase with
  | .ask _ => [.asked x.purpose]
  | .publish _ answer => [.published answer]
  | _ => []

namespace Caller

variable {x : Caller}

theorem exists_ask_of_mem_deeds {purpose : Purpose} (h : .asked purpose ∈ x.deeds) :
    x.purpose = purpose ∧ ∃ other, x.phase = .ask other := by
  obtain ⟨_, p⟩ := x
  cases p with
  | ask other => exact ⟨(Deed.asked.inj (List.mem_singleton.1 h)).symm, other, rfl⟩
  | publish other answer => exact nomatch List.mem_singleton.1 h
  | _ => exact nomatch h

theorem exists_publish_of_mem_deeds {answer : Schema} (h : .published answer ∈ x.deeds) :
    ∃ other, x.phase = .publish other answer := by
  obtain ⟨_, p⟩ := x
  cases p with
  | ask other => exact nomatch List.mem_singleton.1 h
  | publish other answer' =>
    obtain rfl := Deed.published.inj (List.mem_singleton.1 h)
    exact ⟨other, rfl⟩
  | _ => exact nomatch h

end Caller

namespace Phase

variable {p : Phase}

/-- The caller has the lock. -/
def holds : Phase → Bool
  | .look => false
  | .contend _ => false
  | .queue _ => false
  | .done _ => false
  | _ => true

/-- A call to the schema is in flight. -/
def isAwaiting : Phase → Bool
  | .await _ => true
  | _ => false

/-- A call to the schema is in flight, or its answer has yet to be put in place. -/
def isRefreshing : Phase → Bool
  | .await _ => true
  | .learn _ _ => true
  | .publish _ _ => true
  | _ => false

/-- The purpose for which a caller gets into a phase. Any access can end. -/
def purpose? : Phase → Option Purpose
  | .look => some .read
  | .contend _ => some .read
  | .queue purpose => some purpose
  | .recheckStale => some .read
  | .recheckCold => some .read
  | .ask purpose => some purpose
  | .await purpose => some purpose
  | .learn purpose _ => some purpose
  | .publish purpose _ => some purpose
  | .reread => some .read
  | .release => some .warm
  | .done _ => none

theorem isRefreshing_of_isAwaiting (h : p.isAwaiting = true) : p.isRefreshing = true := by
  cases p with
  | await => rfl
  | _ => cases h

theorem holds_of_isRefreshing (h : p.isRefreshing = true) : p.holds = true := by
  cases p with
  | await => rfl
  | learn => rfl
  | publish => rfl
  | _ => cases h

end Phase

/-- There are no fields, or they are the fields of one answer that had arrived. -/
def Known (log : List Deed) (fields : List String) : Prop :=
  fields = [] ∨ ∃ answer : Schema, .heard (some answer) ∈ log ∧ fields = answer.map Prod.fst

theorem Known.append {log : List Deed} {fields : List String} (h : Known log fields)
    (deeds : List Deed) : Known (log ++ deeds) fields := by
  rcases h with hnone | ⟨answer, hheard, hfields⟩
  · exact .inl hnone
  · exact .inr ⟨answer, List.mem_append_left _ hheard, hfields⟩

namespace Phase

variable {now : Int} {c c' : Cache} {p p' : Phase} {events : List Event} {log : List Deed}

/-- What a caller has in hand comes from answers that had arrived. -/
def Knows (log : List Deed) : Phase → Prop
  | .contend seen => Known log seen
  | .learn _ answer => .heard (some answer) ∈ log
  | .publish _ answer => .heard (some answer) ∈ log
  | .done fields => Known log fields
  | _ => True

theorem Knows.append (h : p.Knows log) (deeds : List Deed) : p.Knows (log ++ deeds) := by
  cases p with
  | contend seen => exact Known.append h deeds
  | learn purpose answer => exact List.mem_append_left _ h
  | publish purpose answer => exact List.mem_append_left _ h
  | done fields => exact Known.append h deeds
  | _ => trivial

/-- The snapshot behind a step. It changes as a whole. -/
def leaves (now : Int) (s : Snapshot) : Phase → Snapshot
  | .publish _ answer => ⟨answer.map Prod.fst, some now⟩
  | _ => s

/-- Nothing but putting an answer in place changes the snapshot. -/
theorem leaves_eq_or (now : Int) (s : Snapshot) (p : Phase) : p.leaves now s = s ∨
    ∃ purpose answer, p = .publish purpose answer ∧
      p.leaves now s = ⟨answer.map Prod.fst, some now⟩ := by
  cases p with
  | publish purpose answer => exact .inr ⟨purpose, answer, rfl, rfl⟩
  | _ => exact .inl rfl

/-- What a caller does to the cache when it goes from one phase to the next. -/
structure Stepped (now : Int) (c : Cache) (p : Phase) (deeds : List Deed) (c' : Cache)
    (p' : Phase) : Prop where
  timeToLive_eq : c'.timeToLive = c.timeToLive
  /-- The lock is taken and given back by callers who know that they have it. -/
  lock_eq : (p.holds = true → c.locked = true) →
    c'.locked.toNat + p.holds.toNat = c.locked.toNat + p'.holds.toNat
  snapshot_eq : c'.snapshot = p.leaves now c.snapshot
  purpose_eq : ∀ purpose ∈ p'.purpose?, p.purpose? = some purpose
  /-- Who goes on to ask on behalf of a read has just seen that the fields are stale. -/
  asks : p' = .ask .read → c'.isStale now = true
  knows : ∀ log, Known log c.snapshot.fields → p.Knows log → p'.Knows (log ++ deeds)

namespace Stepped

variable {deeds : List Deed}

/-- A step that leaves the cache alone. -/
theorem of_same (hholds : p.holds = p'.holds) (hleaves : p.leaves now c.snapshot = c.snapshot)
    (hpurpose : ∀ purpose ∈ p'.purpose?, p.purpose? = some purpose)
    (hasks : p' = .ask .read → c.isStale now = true)
    (hknows : ∀ log, Known log c.snapshot.fields → p.Knows log → p'.Knows log) :
    Stepped now c p deeds c p' where
  timeToLive_eq := rfl
  lock_eq _ := by rw [hholds]
  snapshot_eq := hleaves.symm
  purpose_eq := hpurpose
  asks := hasks
  knows log hfields hp := (hknows log hfields hp).append deeds

/-- Looking again with the lock. -/
theorem recheck (hholds : p.holds = true) (hpurpose : p.purpose? = some .read)
    (hleaves : p.leaves now c.snapshot = c.snapshot) {stale : Bool}
    (hstale : stale = true → c.isStale now = true) :
    Stepped now c p deeds c (if stale then .ask .read else .reread) := by
  cases stale with
  | true =>
    exact of_same hholds hleaves (fun _ h => hpurpose.trans h) (fun _ => hstale rfl)
      fun _ _ _ => trivial
  | false =>
    exact of_same hholds hleaves (fun _ h => hpurpose.trans h) (fun h => by cases h)
      fun _ _ _ => trivial

/-- Taking the lock. -/
theorem lock (hfree : c.locked = false) (hout : p.holds = false) (hin : p'.holds = true)
    (hleaves : p.leaves now c.snapshot = c.snapshot) (hpurpose : p'.purpose? = p.purpose?)
    (hask : p' ≠ .ask .read) (hknows : ∀ log, p'.Knows log) :
    Stepped now c p deeds { c with locked := true } p' where
  timeToLive_eq := rfl
  lock_eq _ := by rw [hfree, hout, hin]; rfl
  snapshot_eq := hleaves.symm
  purpose_eq _ h := hpurpose.symm.trans h
  asks h := absurd h hask
  knows log _ _ := hknows _

/-- The end of an access. -/
theorem finish {fields : List String} (htimeToLive : c'.timeToLive = c.timeToLive)
    (hlock : (p.holds = true → c.locked = true) →
      c'.locked.toNat + p.holds.toNat = c.locked.toNat)
    (hsnapshot : c'.snapshot = p.leaves now c.snapshot)
    (hknown : ∀ log, Known log c.snapshot.fields → p.Knows log → Known log fields) :
    Stepped now c p deeds c' (.done fields) where
  timeToLive_eq := htimeToLive
  lock_eq := hlock
  snapshot_eq := hsnapshot
  purpose_eq _ h := absurd h (Option.not_mem_none _)
  asks h := Phase.noConfusion h
  knows log hfields hp := (hknown log hfields hp).append deeds

/-- What follows on an answer is neither the end of the access nor another question. -/
theorem afterAnswer {purpose : Purpose} (hholds : p.holds = true)
    (hpurpose : p.purpose? = some purpose) (htimeToLive : c'.timeToLive = c.timeToLive)
    (hlocked : c'.locked = c.locked) (hsnapshot : c'.snapshot = p.leaves now c.snapshot) :
    Stepped now c p deeds c' (Phase.afterAnswer purpose) := by
  cases purpose with
  | _ =>
    exact {
      timeToLive_eq := htimeToLive
      lock_eq := fun _ => by rw [hlocked, hholds]; rfl
      snapshot_eq := hsnapshot
      purpose_eq := fun _ hmem => hpurpose.trans hmem
      asks := fun h => Phase.noConfusion h
      knows := fun _ _ _ => trivial }

end Stepped

theorem stepped_of_step? (hstep : p.step? now c = some (c', events, p')) (deeds : List Deed) :
    Stepped now c p deeds c' p' := by
  cases p with
  | look =>
    simp only [step?] at hstep
    split at hstep
    · cases hstep
      exact .of_same rfl rfl (fun _ h => h) (fun h => Phase.noConfusion h) fun _ _ _ => trivial
    · cases hstep
      split
      · exact .of_same rfl rfl (fun _ h => h) (fun h => Phase.noConfusion h)
          fun _ hfields _ => hfields
      · exact .finish rfl (fun _ => rfl) rfl fun _ hfields _ => hfields
  | contend seen =>
    simp only [step?] at hstep
    split at hstep
    · cases hstep
      exact .finish rfl (fun _ => rfl) rfl fun _ _ hseen => hseen
    · next hfree =>
      cases hstep
      exact .lock (Bool.eq_false_iff.2 hfree) rfl rfl rfl rfl Phase.noConfusion fun _ => trivial
  | queue purpose =>
    simp only [step?] at hstep
    split at hstep
    · cases hstep
    · next hfree =>
      cases hstep
      cases purpose with
      | read =>
        exact .lock (Bool.eq_false_iff.2 hfree) rfl rfl rfl rfl Phase.noConfusion fun _ => trivial
      | warm =>
        exact .lock (Bool.eq_false_iff.2 hfree) rfl rfl rfl rfl (by decide) fun _ => trivial
  | recheckStale =>
    cases hstep
    exact .recheck rfl rfl rfl id
  | recheckCold =>
    cases hstep
    refine .recheck rfl rfl rfl fun hcold => ?_
    rw [Cache.isStale, Option.isNone_iff_eq_none.1 hcold]
  | ask purpose =>
    cases hstep
    exact .of_same rfl rfl (fun _ h => h) (fun h => Phase.noConfusion h) fun _ _ _ => trivial
  | await purpose => cases hstep
  | learn purpose answer =>
    cases hstep
    exact {
      timeToLive_eq := rfl
      lock_eq := fun _ => rfl
      snapshot_eq := rfl
      purpose_eq := fun _ h => h
      asks := fun h => Phase.noConfusion h
      knows := fun _ _ hheard => List.mem_append_left _ hheard }
  | publish purpose answer =>
    cases hstep
    exact .afterAnswer rfl rfl rfl rfl rfl
  | reread =>
    cases hstep
    exact .finish rfl (fun hlocked => by rw [hlocked rfl]; rfl) rfl fun _ hfields _ => hfields
  | release =>
    cases hstep
    exact .finish rfl (fun hlocked => by rw [hlocked rfl]; rfl) rfl fun _ _ _ => .inl rfl
  | done fields => cases hstep

/-- The answer of the schema is known to whoever asked for it. -/
theorem stepped_answer (now : Int) (c : Cache) (purpose : Purpose) (schema : Option Schema) :
    Stepped now c (.await purpose) [.heard schema] ((await purpose).answer c schema).1
      ((await purpose).answer c schema).2.2 := by
  cases schema with
  | none => exact .afterAnswer rfl rfl rfl rfl rfl
  | some entries =>
    exact {
      timeToLive_eq := rfl
      lock_eq := fun _ => rfl
      snapshot_eq := rfl
      purpose_eq := fun _ h => h
      asks := fun h => Phase.noConfusion h
      knows := fun log _ _ => List.mem_append_right log (List.mem_singleton_self _) }

end Phase

/-- Callers who share a cache. -/
structure Crowd where
  cache : Cache
  /-- The instant of the clock. -/
  now : Int
  /-- The callers whose access has not ended. -/
  waiting : List Caller
  /-- The accesses that have ended, each with the fields it has found. -/
  ended : List (Purpose × List String)
  log : List Deed

namespace Crowd

/-- Nobody has come yet, and nothing is known. -/
def new (enabled : Bool) (timeToLive : Nat) (now : Int) : Crowd :=
  ⟨.new enabled timeToLive, now, [], [], []⟩

/-- Take down where a caller has got to. -/
def put (g : Crowd) (purpose : Purpose) : Phase → Crowd
  | .done fields => { g with ended := g.ended ++ [(purpose, fields)] }
  | p => { g with waiting := g.waiting ++ [⟨purpose, p⟩] }

/-- One move. -/
inductive Moves : Crowd → Crowd → Prop where
  /-- Somebody comes. With the cache switched off there is nothing to find. -/
  | come (g : Crowd) (purpose : Purpose) :
    Moves g (g.put purpose (if g.cache.enabled then purpose.firstPhase else .done []))
  /-- A caller takes its next step. -/
  | step {g : Crowd} {x : Caller} {c : Cache} {events : List Event} {p : Phase}
    (before after : List Caller) (hwaiting : g.waiting = before ++ x :: after)
    (hstep : x.phase.step? g.now g.cache = some (c, events, p)) :
    Moves g ({ g with cache := c, waiting := before ++ after, log := g.log ++ x.deeds }.put
      x.purpose p)
  /-- The schema answers to a caller who waits for it, or fails to. -/
  | answer {g : Crowd} {x : Caller} {purpose : Purpose} (before after : List Caller)
    (hwaiting : g.waiting = before ++ x :: after) (hawaits : x.phase = .await purpose)
    (schema : Option Schema) :
    Moves g ({ g with
      cache := (x.phase.answer g.cache schema).1
      waiting := before ++ after
      log := g.log ++ [Deed.heard schema] }.put x.purpose (x.phase.answer g.cache schema).2.2)
  /-- A caller gives up. If it has the lock, the lock comes free. -/
  | leave {g : Crowd} {x : Caller} (before after : List Caller)
    (hwaiting : g.waiting = before ++ x :: after) :
    Moves g { g with
      cache.locked := g.cache.locked && !x.phase.holds
      waiting := before ++ after }
  /-- The fields are marked as stale. -/
  | mark (g : Crowd) :
    Moves g { g with cache := g.cache.invalidate g.now, log := g.log ++ [.marked] }
  /-- The fields are forgotten. -/
  | forget (g : Crowd) : Moves g { g with cache := g.cache.clear.1, log := g.log ++ [.forgotten] }
  /-- Time passes. -/
  | pass (g : Crowd) (seconds : Nat) : Moves g { g with now := g.now + seconds }

/-- Some number of moves. -/
abbrev Runs : Crowd → Crowd → Prop := Relation.ReflTransGen Moves

section put

variable (g : Crowd) (purpose : Purpose) (p : Phase)

@[simp] theorem cache_put : (g.put purpose p).cache = g.cache := by
  cases p with
  | _ => rfl

@[simp] theorem now_put : (g.put purpose p).now = g.now := by
  cases p with
  | _ => rfl

@[simp] theorem log_put : (g.put purpose p).log = g.log := by
  cases p with
  | _ => rfl

variable {g purpose p}

theorem mem_waiting_put {x : Caller} (h : x ∈ (g.put purpose p).waiting) :
    x ∈ g.waiting ∨ x = ⟨purpose, p⟩ := by
  cases p with
  | done fields => exact .inl h
  | _ => exact (List.mem_append.1 h).imp_right List.mem_singleton.1

theorem mem_ended_put {e : Purpose × List String} (h : e ∈ (g.put purpose p).ended) :
    e ∈ g.ended ∨ p = .done e.2 := by
  cases p with
  | done fields =>
    refine (List.mem_append.1 h).imp_right fun hlast => ?_
    rw [List.mem_singleton.1 hlast]
  | _ => exact .inl h

theorem countP_holds_put : (g.put purpose p).waiting.countP (·.phase.holds) =
    g.waiting.countP (·.phase.holds) + p.holds.toNat := by
  cases p with
  | done fields => rfl
  | _ => simp [put, Phase.holds, List.countP_append]

end put

end Crowd

end Catalog
