import Catalog.Proofs.Patch.Guards

/-!
# When guards are checked again

A guard of an operation is checked again, behind the effect of some operation before it, unless an
equal guard is in force there and no removal comes in between. Nothing else ends the force of a
guard. So an operation that overwrites a container takes away the members below it, and an operation
behind it may still rely on a check of these members from before.
-/

namespace Catalog.Patch

open Segment

theorem exists_guard_of_inForce {line : String} {es : List Emission} (h : InForce line es) :
    ∃ g ∈ es, g.role = .guard ∧ g.line = line := by
  obtain ⟨xs, g, ys, rfl, hg, hline, -⟩ := h
  exact ⟨g, by simp, hg, hline⟩

/-- Among guards alone every line is in force. -/
theorem inForce_of_guards {line : String} {gs : List Emission} (h : ∀ g ∈ gs, g.role = .guard) :
    InForce line gs ↔ ∃ g ∈ gs, g.line = line := by
  constructor
  · intro hforce
    obtain ⟨g, hg, -, hline⟩ := exists_guard_of_inForce hforce
    exact ⟨g, hg, hline⟩
  · rintro ⟨g, hg, hline⟩
    obtain ⟨xs, ys, rfl⟩ := List.append_of_mem hg
    refine ⟨xs, g, ys, rfl, h g hg, hline, fun r hr => ?_⟩
    simp [h r (List.mem_append_right _ (List.mem_cons_of_mem _ hr))]

/-- A guard that is kept repeats none before it. -/
theorem exists_split_of_mem_withoutRepeats {before es : List Emission} {g : Emission}
    (hg : g ∈ withoutRepeats before es) (hrole : g.role = .guard) :
    ∃ xs ys, es = xs ++ g :: ys ∧ ¬InForce g.line (before ++ xs) := by
  obtain ⟨front, back, hsplit⟩ := List.append_of_mem hg
  obtain ⟨xs, ys, hes, -, hrepeat⟩ := exists_split_of_withoutRepeats_eq hsplit
  exact ⟨xs, ys, hes, fun hforce => hrepeat ⟨hrole, hforce⟩⟩

/-- Among statements that put a line in force, a guard with this line is kept unless the line is in
force before them and they hold no removal. -/
theorem exists_guard_withoutRepeats_iff {line : String} {before es : List Emission}
    (hes : InForce line es) :
    (∃ g ∈ withoutRepeats before es, g.role = .guard ∧ g.line = line) ↔
      ¬(InForce line before ∧ ∀ r ∈ es, r.role ≠ .removal) := by
  constructor
  · rintro ⟨g, hg, hrole, rfl⟩ ⟨hforce, hremoval⟩
    obtain ⟨xs, ys, rfl, hnot⟩ := exists_split_of_mem_withoutRepeats hg hrole
    refine hnot ((inForce_append _ _ _).2 (.inr ⟨hforce, fun r hr => hremoval r ?_⟩))
    exact List.mem_append_left _ hr
  · intro h
    have hforce : InForce line (before ++ withoutRepeats before es) :=
      (inForce_withoutRepeats _ _ _).2 ((inForce_append _ _ _).2 (.inl hes))
    rcases (inForce_append _ _ _).1 hforce with hkept | ⟨hbefore, hremoval⟩
    · exact exists_guard_of_inForce hkept
    · refine absurd ⟨hbefore, fun r hr hrole => ?_⟩ h
      exact hremoval r (mem_withoutRepeats_of_role _ hr (by simp [hrole])) hrole

namespace Edit

/-- The edit takes a member or an element away. -/
def Removes (edit : Edit) : Prop := edit.kind = .remove ∨ edit.kind = .move

instance (edit : Edit) : Decidable edit.Removes :=
  inferInstanceAs (Decidable (edit.kind = .remove ∨ edit.kind = .move))

/-- Only the edits that take something away end the force of guards. -/
theorem removes_iff (index : Nat) (edit : Edit) :
    edit.Removes ↔ ∃ r ∈ edit.effects index, r.role = .removal := by
  cases edit <;> simp [Removes, kind, effects]

theorem Resolved.role_of_mem_guards {edit : Edit} (hr : edit.Resolved) {e : Emission}
    (he : e ∈ edit.guards false) : e.role = .guard := by
  obtain ⟨above, s, -, habout⟩ := hr.isAbout_of_mem_guards he
  obtain ⟨c, pointer, rfl⟩ := habout.exists_demand
  rfl

/-- An edit has no removal exactly when it takes nothing away. -/
theorem Resolved.forall_role_iff {edit : Edit} (hr : edit.Resolved) (index : Nat) :
    (∀ r ∈ edit.emissions false index, r.role ≠ .removal) ↔ ¬edit.Removes := by
  rw [edit.emissions_eq, List.forall_mem_append, removes_iff index]
  constructor
  · rintro ⟨-, heffects⟩ ⟨r, hr, hrole⟩
    exact heffects r hr hrole
  · intro h
    refine ⟨fun r hm => ?_, fun r hm hrole => h ⟨r, hm, hrole⟩⟩
    simp [hr.role_of_mem_guards hm]

/-- A line is in force behind an edit that holds a guard with this line and takes nothing away. -/
theorem Resolved.inForce_emissions_iff {edit : Edit} (hr : edit.Resolved) (index : Nat)
    (line : String) :
    InForce line (edit.emissions false index) ↔
      (∃ g ∈ edit.guards false, g.line = line) ∧ ¬edit.Removes := by
  have heffects : ¬InForce line (edit.effects index) := by
    intro hforce
    obtain ⟨g, hg, hrole, -⟩ := exists_guard_of_inForce hforce
    exact role_of_mem_effects hg hrole
  rw [edit.emissions_eq, inForce_append, inForce_of_guards fun g hg => hr.role_of_mem_guards hg,
    removes_iff index]
  constructor
  · rintro (hforce | ⟨hguard, hremoval⟩)
    · exact absurd hforce heffects
    · exact ⟨hguard, fun ⟨r, hm, hrole⟩ => hremoval r hm hrole⟩
  · rintro ⟨hguard, hnot⟩
    exact .inr ⟨hguard, fun r hm hrole => hnot ⟨r, hm, hrole⟩⟩

end Edit

/-- The statements of the edits with the numbers from one on and before another one. -/
def span (edits : List Edit) (i k : Nat) : List Emission :=
  ((edits.zipIdx.take k).drop i).flatMap fun e => e.1.emissions false e.2

theorem span_self (edits : List Edit) (i : Nat) : span edits i i = [] := by
  simp [span]

/-- The statements of one more edit come last. -/
theorem span_succ {edits : List Edit} {i k : Nat} (hik : i ≤ k) {edit : Edit}
    (hk : edits[k]? = some edit) :
    span edits i (k + 1) = span edits i k ++ edit.emissions false k := by
  have hlength : k < edits.length := (List.getElem?_eq_some_iff.1 hk).1
  have hitem : edits.zipIdx[k]? = some (edit, k) := by simp [List.getElem?_zipIdx, hk]
  have htake : i ≤ (edits.zipIdx.take k).length := by
    rw [List.length_take, List.length_zipIdx]
    omega
  rw [span, List.take_add_one, hitem, Option.toList_some, List.drop_append_of_le_length htake,
    List.flatMap_append]
  simp [span]

theorem emissions_eq_span (edits : List Edit) :
    emissions false edits = span edits 0 edits.length := by
  rw [span, List.drop_zero, List.take_of_length_le (by simp)]
  rfl

/-- The statements of edits one after the other. -/
theorem span_append {edits : List Edit} {i k l : Nat} (hik : i ≤ k) (hkl : k ≤ l)
    (hl : l ≤ edits.length) : span edits i k ++ span edits k l = span edits i l := by
  induction hkl with
  | refl => rw [span_self, List.append_nil]
  | @step l hkl ih =>
    have hedit : edits[l]? = some edits[l] := List.getElem?_eq_getElem hl
    rw [span_succ hkl hedit, span_succ (Nat.le_trans hik hkl) hedit, ← List.append_assoc,
      ih (Nat.le_of_succ_le hl)]

/-- Edits hold no removal exactly when none of them takes anything away. -/
theorem forall_role_span_iff {edits : List Edit} (hr : ∀ edit ∈ edits, edit.Resolved) {i k : Nat}
    (hik : i ≤ k) (hk : k ≤ edits.length) :
    (∀ r ∈ span edits i k, r.role ≠ .removal) ↔
      ∀ m edit, i ≤ m → m < k → edits[m]? = some edit → ¬edit.Removes := by
  induction hik with
  | refl => simp [span_self]; omega
  | @step k hik ih =>
    have hedit : edits[k]? = some edits[k] := List.getElem?_eq_getElem hk
    have hresolved := hr edits[k] (List.getElem_mem hk)
    rw [span_succ hik hedit, List.forall_mem_append, ih (Nat.le_of_succ_le hk),
      hresolved.forall_role_iff k]
    constructor
    · rintro ⟨hbefore, hlast⟩ m edit him hmk hm
      rcases Nat.lt_succ_iff_lt_or_eq.1 hmk with hlt | rfl
      · exact hbefore m edit him hlt hm
      · rw [hedit, Option.some.injEq] at hm
        exact hm ▸ hlast
    · intro h
      exact ⟨fun m edit him hmk hm => h m edit him (Nat.lt_succ_of_lt hmk) hm,
        h k _ hik (Nat.lt_succ_self k) hedit⟩

/-- A line is in force behind edits when one of them holds a guard with this line, and neither this
one nor any behind it takes anything away. -/
theorem inForce_span_iff {edits : List Edit} (hr : ∀ edit ∈ edits, edit.Resolved) {k : Nat}
    (hk : k ≤ edits.length) (line : String) :
    InForce line (span edits 0 k) ↔
      ∃ j edit, j < k ∧ edits[j]? = some edit ∧ (∃ g ∈ edit.guards false, g.line = line) ∧
        ∀ m other, j ≤ m → m < k → edits[m]? = some other → ¬other.Removes := by
  induction k with
  | zero => simp [span_self, not_inForce_nil]
  | succ k ih =>
    have hedit : edits[k]? = some edits[k] := List.getElem?_eq_getElem hk
    have hresolved := hr edits[k] (List.getElem_mem hk)
    rw [span_succ (Nat.zero_le k) hedit, inForce_append, hresolved.inForce_emissions_iff,
      hresolved.forall_role_iff, ih (Nat.le_of_succ_le hk)]
    constructor
    · rintro (⟨hguard, hlast⟩ | ⟨⟨j, edit, hjk, hj, hguard, hbefore⟩, hlast⟩)
      · refine ⟨k, _, Nat.lt_succ_self k, hedit, hguard, fun m other hkm hmk hm => ?_⟩
        obtain rfl : m = k := by omega
        rw [hedit, Option.some.injEq] at hm
        exact hm ▸ hlast
      · refine ⟨j, edit, Nat.lt_succ_of_lt hjk, hj, hguard, fun m other hjm hmk hm => ?_⟩
        rcases Nat.lt_succ_iff_lt_or_eq.1 hmk with hlt | rfl
        · exact hbefore m other hjm hlt hm
        · rw [hedit, Option.some.injEq] at hm
          exact hm ▸ hlast
    · rintro ⟨j, edit, hjk, hj, hguard, hnone⟩
      rcases Nat.lt_succ_iff_lt_or_eq.1 hjk with hlt | rfl
      · exact .inr ⟨⟨j, edit, hlt, hj, hguard, fun m other hjm hmk hm =>
          hnone m other hjm (Nat.lt_succ_of_lt hmk) hm⟩,
          hnone k _ (Nat.le_of_lt hlt) (Nat.lt_succ_self k) hedit⟩
      · rw [hedit, Option.some.injEq] at hj
        subst hj
        exact .inl ⟨hguard, hnone j _ (Nat.le_refl j) (Nat.lt_succ_self j) hedit⟩

/-- The statements of a script behind the edit with one number and before the effects of the edit
with another one. -/
def keptBetween (edits : List Edit) (i k : Nat) : List Emission :=
  match edits[k]? with
  | some edit => withoutRepeats (span edits 0 (i + 1)) (span edits (i + 1) k ++ edit.guards false)
  | none => []

/-- Between statements that are no guards, a part is kept without the guards that repeat one before
it. -/
private theorem withoutRepeats_parts (a f m l z : List Emission) (hf : ∀ e ∈ f, e.role ≠ .guard)
    (hl : ∀ e ∈ l, e.role ≠ .guard) :
    withoutRepeats [] (a ++ f ++ m ++ l ++ z) =
      withoutRepeats [] a ++ f ++ withoutRepeats (a ++ f) m ++ l ++
        withoutRepeats (a ++ f ++ m ++ l) z := by
  rw [withoutRepeats_append, withoutRepeats_append, withoutRepeats_append, withoutRepeats_append,
    withoutRepeats_eq_self _ hf, withoutRepeats_eq_self _ hl]
  simp only [List.nil_append]

/-- Where they stand in the script. -/
theorem withoutRepeats_eq_parts {edits : List Edit} {i k : Nat} (hik : i < k) {first last : Edit}
    (hi : edits[i]? = some first) (hk : edits[k]? = some last) :
    ∃ before after, withoutRepeats [] (emissions false edits) =
      before ++ first.effects i ++ keptBetween edits i k ++ last.effects k ++ after := by
  have hlength : k < edits.length := (List.getElem?_eq_some_iff.1 hk).1
  have hfirst : span edits 0 (i + 1) = span edits 0 i ++ first.guards false ++ first.effects i := by
    rw [span_succ (Nat.zero_le i) hi, first.emissions_eq, List.append_assoc]
  have hlast : span edits (i + 1) (k + 1) =
      span edits (i + 1) k ++ last.guards false ++ last.effects k := by
    rw [span_succ hik hk, last.emissions_eq, List.append_assoc]
  have hsplit : emissions false edits =
      span edits 0 i ++ first.guards false ++ first.effects i ++
        (span edits (i + 1) k ++ last.guards false) ++ last.effects k ++
        span edits (k + 1) edits.length := by
    rw [emissions_eq_span, ← span_append (Nat.zero_le (k + 1)) hlength (Nat.le_refl _),
      ← span_append (Nat.zero_le (i + 1)) (Nat.le_succ_of_le hik) hlength, hfirst, hlast]
    simp only [List.append_assoc]
  rw [hsplit, withoutRepeats_parts _ _ _ _ _ (fun _ => Edit.role_of_mem_effects)
    fun _ => Edit.role_of_mem_effects]
  simp only [keptBetween, hk, hfirst]
  exact ⟨_, _, rfl⟩

namespace Edit

/-- The pointers whose member or element an edit assigns. -/
def assigned : Edit → List Pointer
  | .add p _ => [p]
  | .replace p _ => [p]
  | .copy _ p => [p]
  | .move _ p => [p]
  | _ => []

/-- A guard of another edit with the same line is the same guard. -/
theorem Resolved.exists_line_iff {edit other : Edit} (hr : edit.Resolved) (ho : other.Resolved)
    {e : Emission} (he : e ∈ other.guards false) :
    (∃ g ∈ edit.guards false, g.line = e.line) ↔ e ∈ edit.guards false := by
  refine ⟨fun ⟨g, hg, hline⟩ => ?_, fun h => ⟨e, h, rfl⟩⟩
  have hemission {f : Edit} {x : Emission} (hx : x ∈ f.guards false) :
      x ∈ f.emissions false 0 := by
    rw [f.emissions_eq]
    exact List.mem_append_left _ hx
  have hw := hr.wellWritten_emissions (hemission hg)
  have hw' := ho.wellWritten_emissions (hemission he)
  obtain ⟨above, s, hread, habout⟩ := hr.isAbout_of_mem_guards hg
  obtain ⟨above', s', hread', habout'⟩ := ho.isAbout_of_mem_guards he
  rw [Emission.line, Emission.line, hw.normalize_text, hw'.normalize_text] at hline
  rwa [← habout.eq_of_text habout' hread hread' hw hw' hline]

end Edit

/-- A script checks a guard of an operation behind the effect of an operation before it, unless the
guard was checked for that one or for an earlier one and nothing was removed since. What was
assigned in between does not count. -/
theorem guard_rechecked_iff {lang : String} {operations : List Operation} {s : Script}
    (h : compile false lang operations = .ok s) :
    ∃ edits, operations.mapM Operation.resolve = .ok edits ∧
      ∀ i k first last, i < k → edits[i]? = some first → edits[k]? = some last →
        (∃ before after, s.instructions = (before ++ first.effects i ++ keptBetween edits i k ++
          last.effects k ++ after).map Emission.line) ∧
        ∀ e ∈ last.guards false,
          (∃ g ∈ keptBetween edits i k, g.role = .guard ∧ g.line = e.line) ↔
            ¬∃ j edit, j ≤ i ∧ edits[j]? = some edit ∧ e ∈ edit.guards false ∧
              ∀ m other, j ≤ m → m < k → edits[m]? = some other → ¬other.Removes := by
  obtain ⟨edits, hedits, hr, hlines, -⟩ := instructions_of_compile h
  refine ⟨edits, hedits, fun i k first last hik hi hk => ⟨?_, fun e he => ?_⟩⟩
  · obtain ⟨before, after, hparts⟩ := withoutRepeats_eq_parts hik hi hk
    exact ⟨before, after, by rw [hlines, hparts]⟩
  · have hlength : k < edits.length := (List.getElem?_eq_some_iff.1 hk).1
    have hlast := hr last (List.mem_of_getElem? hk)
    have hguards : InForce e.line (last.guards false) :=
      (inForce_of_guards fun g hg => hlast.role_of_mem_guards hg).2 ⟨e, he, rfl⟩
    have hremoval : (∀ r ∈ span edits (i + 1) k ++ last.guards false, r.role ≠ .removal) ↔
        ∀ m other, i + 1 ≤ m → m < k → edits[m]? = some other → ¬other.Removes := by
      rw [List.forall_mem_append, forall_role_span_iff hr hik (Nat.le_of_lt hlength)]
      refine and_iff_left fun r hm => ?_
      simp [hlast.role_of_mem_guards hm]
    simp only [keptBetween, hk]
    rw [exists_guard_withoutRepeats_iff ((inForce_append _ _ _).2 (.inl hguards)), hremoval,
      inForce_span_iff hr (by omega), not_iff_not]
    constructor
    · rintro ⟨⟨j, edit, hji, hj, hguard, hbefore⟩, hbehind⟩
      refine ⟨j, edit, Nat.le_of_lt_succ hji, hj, ?_, fun m other hjm hmk hm => ?_⟩
      · exact ((hr edit (List.mem_of_getElem? hj)).exists_line_iff hlast he).1 hguard
      · rcases Nat.lt_or_ge m (i + 1) with hlt | hge
        · exact hbefore m other hjm hlt hm
        · exact hbehind m other hge hmk hm
    · rintro ⟨j, edit, hji, hj, hguard, hnone⟩
      refine ⟨⟨j, edit, Nat.lt_succ_of_le hji, hj, ⟨e, hguard, rfl⟩, ?_⟩, ?_⟩
      · exact fun m other hjm hmi hm => hnone m other hjm (by omega) hm
      · exact fun m other him hmk hm => hnone m other (by omega) hmk hm

theorem not_rechecked_of_test_add_replace :
    ∃ s edits, compile false defaultLang [.ofTest "/a/b" .null, .ofAdd "/a" (.object []),
        .ofReplace "/a/b" .null] = .ok s ∧
      [Operation.ofTest "/a/b" .null, .ofAdd "/a" (.object []), .ofReplace "/a/b" .null].mapM
        Operation.resolve = .ok edits ∧
      ∀ last, edits[2]? = some last → ∀ e ∈ last.guards false,
        ¬∃ g ∈ keptBetween edits 1 2, g.role = .guard ∧ g.line = e.line := by
  obtain ⟨s, hs⟩ : ∃ s, compile false defaultLang [.ofTest "/a/b" .null, .ofAdd "/a" (.object []),
      .ofReplace "/a/b" .null] = .ok s := ⟨_, rfl⟩
  obtain ⟨edits, hedits, hall⟩ := guard_rechecked_iff hs
  refine ⟨s, edits, hs, hedits, ?_⟩
  cases hedits
  intro last hlast e he hmem
  refine ((hall 1 2 _ last (by decide) rfl hlast).2 e he).1 hmem ⟨0, _, by decide, rfl, ?_, ?_⟩
  · cases hlast
    exact he
  · intro m other _ hm hother
    rcases m with _ | _ | m
    · cases hother
      decide
    · cases hother
      decide
    · omega

/-- Every guard below a pointer that was assigned would be checked again behind the assignment. -/
def RechecksAfterOverwrites : Prop :=
  ∀ (operations : List Operation) (edits : List Edit),
    operations.mapM Operation.resolve = .ok edits →
      ∀ i k first last, i < k → edits[i]? = some first → edits[k]? = some last →
        ∀ target ∈ first.assigned, ∀ above s, target.segments <+: above ++ [s] →
          target.segments ≠ above ++ [s] →
            ∀ e ∈ last.guards false,
              e = Emission.presence (chain above) s (pointerText (above ++ [s])) →
                ∃ g ∈ keptBetween edits i k, g.role = .guard ∧ g.line = e.line

/-- A test of `/a/b`, an assignment of `/a` and a replacement of `/a/b`: the replacement relies on
the check of the test, although the assignment may have taken `/a/b` away. -/
theorem not_rechecksAfterOverwrites : ¬RechecksAfterOverwrites := by
  intro h
  have hedits : [Operation.ofTest "/a/b" .null, .ofAdd "/a" (.object []),
      .ofReplace "/a/b" .null].mapM Operation.resolve =
        .ok [.test ⟨"/a/b", [.key "a"], .key "b"⟩ .null, .add ⟨"/a", [], .key "a"⟩ (.object []),
          .replace ⟨"/a/b", [.key "a"], .key "b"⟩ .null] := by rfl
  have hkept : keptBetween [.test ⟨"/a/b", [.key "a"], .key "b"⟩ .null,
      .add ⟨"/a", [], .key "a"⟩ (.object []), .replace ⟨"/a/b", [.key "a"], .key "b"⟩ .null] 1 2 =
        [] := by decide +kernel
  obtain ⟨g, hg, -⟩ := h _ _ hedits 1 2 _ _ (by decide) rfl rfl ⟨"/a", [], .key "a"⟩
    (List.mem_singleton_self _) [.key "a"] (.key "b") (by decide) (by decide) _
    (List.mem_append_right _ (List.mem_singleton_self _)) rfl
  rw [hkept] at hg
  simp at hg

end Catalog.Patch
