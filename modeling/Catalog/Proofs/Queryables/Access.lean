import Catalog.Queryables.Phase

/-!
# How far an access gets

An access takes its steps until it waits or has ended. Without anybody else holding the lock it gets
as far as the question to the schema, and any answer brings it to its end.
-/

namespace Catalog

namespace Phase

variable {now : Int} {c c' : Cache} {p p' : Phase} {events : List Event}

theorem run_of_step? (h : p.step? now c = some (c', events, p')) :
    p.run now c =
      ((p'.run now c').1, events ++ (p'.run now c').2.1, (p'.run now c').2.2) := by
  rw [run]
  split
  · next hnone => simp [h] at hnone
  · next hsome =>
    rw [h, Option.some.injEq, Prod.mk.injEq, Prod.mk.injEq] at hsome
    obtain ⟨rfl, rfl, rfl⟩ := hsome
    rfl

theorem run_of_waits (h : p.step? now c = none) : p.run now c = (c, [], p) := by
  rw [run]
  split
  · rfl
  · next hsome => simp [h] at hsome

/-- Going on without interruption, the access comes to its end. -/
def Ends (now : Int) (c : Cache) (p : Phase) : Prop := ∃ fields, (p.run now c).2.2 = .done fields

/-- Going on without interruption, a read gets at least to where it waits for the schema. -/
def Arrives (now : Int) (c : Cache) (p : Phase) : Prop :=
  (p.run now c).2.2 = .await .read ∨ p.Ends now c

theorem Ends.of_step? (h : p'.Ends now c') (hstep : p.step? now c = some (c', events, p')) :
    p.Ends now c := by
  obtain ⟨fields, h⟩ := h
  exact ⟨fields, by rw [run_of_step? hstep, h]⟩

theorem Arrives.of_step? (h : p'.Arrives now c')
    (hstep : p.step? now c = some (c', events, p')) : p.Arrives now c := by
  rcases h with h | h
  · exact .inl (by rw [run_of_step? hstep, h])
  · exact .inr (h.of_step? hstep)

theorem ends_done (now : Int) (c : Cache) (fields : List String) : (done fields).Ends now c :=
  ⟨fields, by rw [run_of_waits rfl]⟩

theorem ends_reread (now : Int) (c : Cache) : reread.Ends now c :=
  (ends_done ..).of_step? rfl

theorem ends_afterAnswer (now : Int) (c : Cache) (purpose : Purpose) :
    (afterAnswer purpose).Ends now c := by
  cases purpose with
  | read => exact ends_reread now c
  | warm => exact (ends_done ..).of_step? rfl

/-- An answer of the schema brings the access to its end, also when it is a failure. -/
theorem ends_answer (now : Int) (c : Cache) (schema : Option Schema) (purpose : Purpose) :
    ((await purpose).answer c schema).2.2.Ends now ((await purpose).answer c schema).1 := by
  cases schema with
  | none => exact ends_afterAnswer now _ purpose
  | some entries =>
    have hpublish (c : Cache) : (publish purpose entries).Ends now c :=
      (ends_afterAnswer ..).of_step? rfl
    exact (hpublish _).of_step? rfl

theorem arrives_ask (now : Int) (c : Cache) : (ask .read).Arrives now c :=
  .inl (by rw [run_of_step? rfl, run_of_waits rfl])

/-- With the lock free a read does not wait for anybody but the schema. -/
theorem arrives_look (now : Int) (hfree : c.locked = false) : look.Arrives now c := by
  have hstale (c : Cache) : recheckStale.Arrives now c := by
    by_cases h : c.isStale now
    · exact (arrives_ask now c).of_step? (by rw [step?, if_pos h])
    · exact .inr ((ends_reread now c).of_step? (by rw [step?, if_neg h]))
  have hcold (c : Cache) : recheckCold.Arrives now c := by
    by_cases h : c.snapshot.loadedAt.isNone
    · exact (arrives_ask now c).of_step? (by rw [step?, if_pos h])
    · exact .inr ((ends_reread now c).of_step? (by rw [step?, if_neg h]))
  cases hloaded : c.snapshot.loadedAt with
  | none =>
    have hstep : look.step? now c = some (c, [], .queue .read) := by simp [step?, hloaded]
    have hlock : (queue .read).step? now c =
        some ({ c with locked := true }, [], .recheckCold) := by simp [step?, hfree]
    exact ((hcold _).of_step? hlock).of_step? hstep
  | some instant =>
    by_cases h : c.isStale now
    · have hstep : look.step? now c = some (c, [], .contend c.snapshot.fields) := by
        simp [step?, hloaded, h]
      have hlock : (contend c.snapshot.fields).step? now c =
          some ({ c with locked := true }, [], .recheckStale) := by simp [step?, hfree]
      exact ((hstale _).of_step? hlock).of_step? hstep
    · have hstep : look.step? now c = some (c, [], .done c.snapshot.fields) := by
        simp [step?, hloaded, h]
      exact .inr ((ends_done now c c.snapshot.fields).of_step? hstep)

end Phase

end Catalog
