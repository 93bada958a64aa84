import Catalog.Proofs.Patch.Effects
import Catalog.Proofs.Script.Containers

/-!
# Containers are checked before they are used

A statement goes through a container only where guards in force have seen to every segment that
leads to it: such a guard aborts the script unless its segment leads to something, or makes what is
missing. Each of them is told by its line and by what it does. The guards of a pointer stand from
the outermost container down, so each of them is itself about a container that the ones before it
have seen to. A guard that is dropped repeats one in force, so dropping takes nothing away. The
assignment of a move stands right behind the removal of the same move, which ends the force of its
guards; it relies on what was in force before that removal.
-/

namespace Catalog.Patch

open Catalog.Script Segment

/-- The guards for a member of the container that segments lead to. -/
inductive Emission.Secures (above : List Segment) : Segment → Emission → Prop where
  | presence (s : Segment) (hread : s.IsRead) (hend : s ≠ .append) :
    Secures above s (presence (chain above) s (pointerText (above ++ [s])))
  | creation (name : String) : Secures above (.key name) (creation (chain above) name)

/-- The guard sees to a member, whatever the state of the script is: the script goes on as it is
exactly when the member is there, or the guard adds an empty map for it where it is not there. Only
what has a name is added. -/
inductive Emission.SeesTo (above : List Segment) : Segment → Emission → Prop where
  | tests {s : Segment} {g : Emission} (h : ∀ (d : Dialect) (σ : State), g.statement.exec d σ =
      if (σ.document.get? (above ++ [s])).isSome then some σ else none) : SeesTo above s g
  | makes {name : String} {g : Emission} (h : ∀ (d : Dialect) (σ : State), g.statement.exec d σ =
      if (σ.document.get? (above ++ [.key name])).isSome then some σ
      else σ.withDocument (σ.document.modify? (Json.addChild? (.object []) (.key name)) above)) :
    SeesTo above (.key name) g

theorem Emission.Secures.seesTo {above : List Segment} {s : Segment} {g : Emission}
    (h : Secures above s g) : SeesTo above s g := by
  cases h with
  | presence _ hread hend => exact .tests fun d σ => exec_presence hread hend _
  | creation name => exact .makes fun d σ => exec_creation above name

/-- A guard in force sees to every segment of the path. -/
def Secured (before : List Emission) (path : List Segment) : Prop :=
  ∀ above s, above ++ [s] <+: path →
    ∃ g, Emission.Secures above s g ∧ Emission.SeesTo above s g ∧ InForce g.line before

/-- Guards in force see to the path where a statement stands, or, for the assignment of a move,
where the removal of that move stands. -/
def SecuredAt (edits : List Edit) (before : List Emission) (e : Emission) (path : List Segment) :
    Prop :=
  Secured before path ∨
    ∃ (i : Nat) (source target : Pointer) (r : Emission) (front : List Emission),
      edits[i]? = some (.move source target) ∧ (Edit.move source target).effects i = [r, e] ∧
        before = front ++ [r] ∧ Secured front path

/-- Every container that one of the statements goes through is secured where it stands. -/
def Grounded (edits : List Edit) (es : List Emission) : Prop :=
  ∀ before e after, es = before ++ e :: after → ∀ c ∈ e.statement.containers,
    ∃ path, c = chain path ∧ SecuredAt edits before e path

section

variable {edits : List Edit} {before es gs : List Emission} {path : List Segment} {e g : Emission}

theorem secured_nil (before : List Emission) : Secured before [] := by
  intro above s h
  simp at h

theorem Secured.of_prefix {above : List Segment} (h : Secured before path)
    (habove : above <+: path) : Secured before above :=
  fun us s hus => h us s (hus.trans habove)

/-- Statements before others take nothing away from what these secure. -/
theorem Secured.prepend (h : Secured es path) (before : List Emission) :
    Secured (before ++ es) path := by
  intro above s hs
  obtain ⟨g, hg, hsees, hforce⟩ := h above s hs
  exact ⟨g, hg, hsees, (inForce_append _ _ _).2 (.inl hforce)⟩

/-- What is secured stays so until something is removed. -/
theorem Secured.append (h : Secured before path) (hes : ∀ r ∈ es, r.role ≠ .removal) :
    Secured (before ++ es) path := by
  intro above s hs
  obtain ⟨g, hg, hsees, hforce⟩ := h above s hs
  exact ⟨g, hg, hsees, (inForce_append _ _ _).2 (.inr ⟨hforce, hes⟩)⟩

/-- Dropping repeated guards secures the same paths. -/
theorem Secured.withoutRepeats (h : Secured es path) : Secured (withoutRepeats [] es) path := by
  intro above s hs
  obtain ⟨g, hg, hsees, hforce⟩ := h above s hs
  exact ⟨g, hg, hsees, (inForce_withoutRepeats g.line [] es).2 hforce⟩

theorem SecuredAt.prepend (h : SecuredAt edits es e path) (before : List Emission) :
    SecuredAt edits (before ++ es) e path := by
  rcases h with h | ⟨i, source, target, r, front, hi, heffects, rfl, h⟩
  · exact .inl (h.prepend before)
  · exact .inr ⟨i, source, target, r, before ++ front, hi, heffects,
      (List.append_assoc ..).symm, h.prepend before⟩

theorem SecuredAt.withoutRepeats (h : SecuredAt edits es e path) :
    SecuredAt edits (withoutRepeats [] es) e path := by
  rcases h with h | ⟨i, source, target, r, front, hi, heffects, rfl, h⟩
  · exact .inl h.withoutRepeats
  · have hr : r ∈ (Edit.move source target).effects i := heffects ▸ List.mem_cons_self
    exact .inr ⟨i, source, target, r, _, hi, heffects,
      withoutRepeats_append_singleton _ _ (Edit.role_of_mem_effects hr), h.withoutRepeats⟩

theorem grounded_nil : Grounded edits [] := by
  intro before e after h
  simp at h

theorem Grounded.append (h : Grounded edits before) (hes : Grounded edits es) :
    Grounded edits (before ++ es) := by
  intro front e back hsplit c hc
  rcases List.append_eq_append_iff.1 hsplit with ⟨xs, rfl, hxs⟩ | ⟨xs, rfl, hxs⟩
  · obtain ⟨path, rfl, hpath⟩ := hes xs e back hxs c hc
    exact ⟨path, rfl, hpath.prepend before⟩
  · cases xs with
    | nil =>
      obtain ⟨path, rfl, hpath⟩ := hes [] e back hxs.symm c hc
      exact ⟨path, rfl, by simpa using hpath.prepend front⟩
    | cons x xs =>
      obtain ⟨rfl, -⟩ := List.cons.inj hxs
      exact h front e xs rfl c hc

/-- One more statement that goes through secured containers only. -/
theorem Grounded.append_singleton (h : Grounded edits es)
    (he : ∀ c ∈ e.statement.containers, ∃ path, c = chain path ∧ SecuredAt edits es e path) :
    Grounded edits (es ++ [e]) := by
  intro front x back hsplit c hc
  rcases List.eq_nil_or_concat back with rfl | ⟨back, y, rfl⟩
  · obtain ⟨rfl, hx⟩ := List.append_inj' hsplit rfl
    obtain rfl : e = x := by simpa using hx
    exact he c hc
  · have hend : es ++ [e] = (front ++ x :: back) ++ [y] := by rw [hsplit]; simp
    obtain ⟨rfl, -⟩ := List.append_inj' hend rfl
    exact h front x back rfl c hc

/-- Dropping repeated guards leaves every statement that is kept on secured containers. -/
theorem Grounded.withoutRepeats (h : Grounded edits es) :
    Grounded edits (withoutRepeats [] es) := by
  intro front e back hsplit c hc
  obtain ⟨xs, ys, rfl, rfl, -⟩ := exists_split_of_withoutRepeats_eq hsplit
  obtain ⟨path, rfl, hpath⟩ := h xs e ys rfl c hc
  exact ⟨path, rfl, hpath.withoutRepeats⟩

/-- Containers on a secured path are secured. -/
theorem SecuredAt.of_onPath (h : SecuredAt edits es e path) {c : Expr} (hc : OnPath path c) :
    ∃ above, c = chain above ∧ SecuredAt edits es e above := by
  obtain ⟨above, habove, rfl⟩ := hc
  refine ⟨above, rfl, ?_⟩
  rcases h with h | ⟨i, source, target, r, front, hi, heffects, rfl, h⟩
  · exact .inl (h.of_prefix habove)
  · exact .inr ⟨i, source, target, r, front, hi, heffects, rfl, h.of_prefix habove⟩

/-- Guards that secure a path, each on containers that the ones before it secure. -/
structure LeadsTo (edits : List Edit) (path : List Segment) (gs : List Emission) : Prop where
  role : ∀ g ∈ gs, g.role = .guard
  tests : ∀ g ∈ gs, ∃ path, chain path ∈ g.statement.containers
  grounded : Grounded edits gs
  secured : Secured gs path

theorem LeadsTo.role_ne_removal (h : LeadsTo edits path gs) : ∀ g ∈ gs, g.role ≠ .removal := by
  intro g hg
  simp [h.role g hg]

/-- Guards one after the other secure what either of them secure. -/
theorem LeadsTo.append {below : List Segment} {hs : List Emission} (h : LeadsTo edits path gs)
    (h' : LeadsTo edits below hs) :
    LeadsTo edits path (gs ++ hs) ∧ LeadsTo edits below (gs ++ hs) := by
  have hrole := List.forall_mem_append.2 ⟨h.role, h'.role⟩
  have htests := List.forall_mem_append.2 ⟨h.tests, h'.tests⟩
  have hgrounded := h.grounded.append h'.grounded
  exact ⟨⟨hrole, htests, hgrounded, h.secured.append h'.role_ne_removal⟩,
    ⟨hrole, htests, hgrounded, h'.secured.prepend gs⟩⟩

theorem leadsTo_nil : LeadsTo edits [] [] := ⟨by simp, by simp, grounded_nil, secured_nil []⟩

/-- One more guard on the path. -/
theorem LeadsTo.append_singleton (h : LeadsTo edits path gs) (hrole : g.role = .guard)
    (htests : chain path ∈ g.statement.containers)
    (hon : ∀ c ∈ g.statement.containers, OnPath path c) : LeadsTo edits path (gs ++ [g]) where
  role := List.forall_mem_append.2 ⟨h.role, List.forall_mem_singleton.2 hrole⟩
  tests := List.forall_mem_append.2 ⟨h.tests, List.forall_mem_singleton.2 ⟨path, htests⟩⟩
  grounded := h.grounded.append_singleton fun c hc =>
    SecuredAt.of_onPath (.inl h.secured) (hon c hc)
  secured := h.secured.append (List.forall_mem_singleton.2 (by simp [hrole]))

end

namespace Emission

variable {edits : List Edit} {above : List Segment} {s : Segment} {g : Emission}

theorem Secures.role (h : Secures above s g) : g.role = .guard := by
  cases h with
  | presence => rfl
  | creation => rfl

/-- A guard that sees to a member tests the container of the member. -/
theorem Secures.mem_containers (h : Secures above s g) : chain above ∈ g.statement.containers := by
  cases h with
  | presence =>
    simp only [Emission.presence, demand, Statement.containers, Expr.containers, List.append_nil]
    exact base_mem_isPresent
  | creation name => simp [Emission.creation, Statement.containers, Expr.containers]

/-- It goes through no other containers than those on the way. -/
theorem Secures.onPath (h : Secures above s g) {c : Expr} (hc : c ∈ g.statement.containers) :
    OnPath above c := by
  cases h with
  | presence =>
    simp only [Emission.presence, demand, Statement.containers, Expr.containers,
      List.append_nil] at hc
    exact onPath_of_base (containers_of_isPresent hc)
  | creation name =>
    simp only [Emission.creation, Statement.containers, Expr.containers, List.append_nil,
      List.cons_append, List.mem_cons, List.mem_append] at hc
    rcases hc with hc | hc | hc
    · exact onPath_of_base (.inl hc)
    · exact onPath_of_base (.inr hc)
    · exact onPath_of_base (containers_of_accessor hc)

/-- Seeing to one more member secures a path that is longer by one segment. -/
theorem Secures.leadsTo {gs : List Emission} (h : Secures above s g)
    (hgs : LeadsTo edits above gs) : LeadsTo edits (above ++ [s]) (gs ++ [g]) := by
  obtain ⟨hrole, htests, hgrounded, hsecured⟩ :=
    hgs.append_singleton h.role h.mem_containers fun c hc => h.onPath hc
  refine ⟨hrole, htests, hgrounded, fun us u hus => ?_⟩
  rcases List.prefix_concat_iff.1 hus with heq | hus
  · obtain ⟨rfl, hu⟩ := List.append_inj' heq rfl
    obtain rfl : u = s := by simpa using hu
    exact ⟨g, h, h.seesTo,
      (inForce_append_singleton _ _ _).2 ⟨by simp [h.role], .inl ⟨h.role, rfl⟩⟩⟩
  · exact hsecured us u hus

variable {p : Pointer}

/-- The guard of a container of a pointer sees to it. -/
theorem secures_ancestor (hp : p.Resolved) (create : Bool) {depth : Nat}
    (hs : p.parents[depth]? = some s) :
    Secures (p.parents.take depth) s (ancestor p create depth s) := by
  have hlt : depth + 1 ≤ p.parents.length := (List.getElem?_eq_some_iff.1 hs).1
  have htext : p.ancestorText (depth + 1) = pointerText (p.parents.take depth ++ [s]) := by
    rw [hp.ancestorText_eq, Pointer.segments, List.take_append_of_le_length hlt, List.take_add_one,
      hs, Option.toList_some]
  have hmem : s ∈ p.parents := List.mem_of_getElem? hs
  unfold ancestor
  split
  · exact .creation _
  · rw [htext]
    exact .presence _ (hp.isRead s (List.mem_append_left _ hmem))
      (ne_of_mem_of_not_mem hmem hp.append_notMem)

/-- The guards of the first containers of a pointer secure the segments that lead to the last of
them. -/
private theorem leadsTo_take_ancestors (edits : List Edit) (hp : p.Resolved) (create : Bool)
    {depth : Nat} (hdepth : depth ≤ p.parents.length) :
    LeadsTo edits (p.parents.take depth) ((ancestors p create).take depth) := by
  induction depth with
  | zero => simpa using leadsTo_nil
  | succ depth ih =>
    have hlt : depth < p.parents.length := hdepth
    have hsegment : p.parents[depth]? = some p.parents[depth] := List.getElem?_eq_getElem hlt
    have hguard : (ancestors p create)[depth]? =
        some (ancestor p create depth p.parents[depth]) := by
      simp [ancestors, List.getElem?_zipIdx, hsegment]
    rw [List.take_add_one, List.take_add_one, hsegment, hguard]
    exact (secures_ancestor hp create hsegment).leadsTo (ih (Nat.le_of_lt hlt))

/-- The guards of the containers of a pointer secure its container. -/
theorem leadsTo_ancestors (edits : List Edit) (hp : p.Resolved) (create : Bool) :
    LeadsTo edits p.parents (ancestors p create) := by
  have h := leadsTo_take_ancestors edits hp create (Nat.le_refl _)
  have hlength : (ancestors p create).length = p.parents.length := by simp [ancestors]
  rwa [List.take_length, ← hlength, List.take_length] at h

theorem leadsTo_existing (edits : List Edit) (hp : p.Resolved) (hk : p.key ≠ .append) :
    LeadsTo edits p.parents (existing p) := by
  have hkey : Secures p.parents p.key (presence p.container p.key p.text) := by
    rw [hp.text_eq]
    exact .presence p.key (hp.isRead p.key (by simp [Pointer.segments])) hk
  exact (leadsTo_ancestors edits hp false).append_singleton rfl hkey.mem_containers
    fun c hc => hkey.onPath hc

theorem leadsTo_insertable (edits : List Edit) (hp : p.Resolved) (create : Bool) :
    LeadsTo edits p.parents (insertable p create) := by
  unfold insertable
  split
  · have hcontainers : (demand (p.key.isInsertable p.container) p.text).statement.containers =
        (p.key.isInsertable p.container).containers := by
      simp [demand, Statement.containers, Expr.containers]
    refine (leadsTo_ancestors edits hp create).append_singleton rfl ?_ fun c hc => ?_
    · exact hcontainers ▸ base_mem_isInsertable
    · exact onPath_of_base (containers_of_isInsertable (hcontainers ▸ hc))
  · rw [List.append_nil]
    exact leadsTo_ancestors edits hp create

end Emission

section

variable {p : Pointer} {placement : Placement} {value c : Expr}

/-- Placing a value in the container of a pointer goes through this container and those of the
value. -/
theorem containers_of_placement {index : Expr}
    (hindex : ∀ c ∈ index.containers, c = p.container ∨ c ∈ p.container.containers)
    (h : c ∈ (placement.statement p.container index value).containers) :
    OnPath p.parents c ∨ c ∈ value.containers := by
  have h' : c = p.container ∨ c ∈ p.container.containers ∨ c ∈ index.containers ∨
      c ∈ value.containers := by
    cases placement with
    | insert => simpa [Placement.statement, Statement.containers, or_assoc] using h
    | overwrite => simpa [Placement.statement, Statement.containers, or_assoc] using h
  rcases h' with h | h | h | h
  · exact .inl (onPath_of_base (.inl h))
  · exact .inl (onPath_of_base (.inr h))
  · exact .inl (onPath_of_base (hindex c h))
  · exact .inr h

/-- An assignment goes through the container of its pointer and those of its value. -/
theorem containers_of_assignment (h : c ∈ (assignment p placement value).containers) :
    OnPath p.parents c ∨ c ∈ value.containers := by
  unfold assignment at h
  split at h
  · rcases List.mem_append.1 h with h | h
    · exact .inl (onPath_of_base (containers_of_accessor h))
    · exact .inr h
  · simp only [Statement.containers, Expr.containers, List.append_nil, List.mem_append,
      List.mem_cons] at h
    rcases h with ((h | h) | h) | (h | h) | h
    · exact .inl (onPath_of_base (.inl h))
    · exact .inl (onPath_of_base (.inr h))
    · exact containers_of_placement (by simp [Expr.containers]) h
    · exact .inl (onPath_of_base (.inl h))
    · exact .inl (onPath_of_base (.inr h))
    · exact .inr h
  · exact containers_of_placement (fun c hc => containers_of_selector hc) h

theorem container_mem_assignment (p : Pointer) (placement : Placement) (value : Expr) :
    p.container ∈ (assignment p placement value).containers := by
  unfold assignment
  split
  · exact List.mem_append_left _ base_mem_accessor
  · simp [Statement.containers, Expr.containers]
  · cases placement with
    | insert => simp [Placement.statement, Statement.containers]
    | overwrite => simp [Placement.statement, Statement.containers]

theorem container_mem_assignment_value (h : c ∈ value.containers) :
    c ∈ (assignment p placement value).containers := by
  have hplacement (index : Expr) :
      c ∈ (placement.statement p.container index value).containers := by
    cases placement with
    | insert => simp [Placement.statement, Statement.containers, h]
    | overwrite => simp [Placement.statement, Statement.containers, h]
  unfold assignment
  split
  · exact List.mem_append_right _ h
  · exact List.mem_append_right _ (List.mem_append_right _ h)
  · exact hplacement _

/-- A removal goes through the container of its pointer. -/
theorem containers_of_removal (h : c ∈ (removal p).containers) : OnPath p.parents c := by
  unfold removal at h
  split at h
  · simp only [Removal.containers, Expr.containers, List.append_nil, List.mem_append,
      List.mem_cons] at h
    refine onPath_of_base ?_
    tauto
  · rcases List.mem_cons.1 h with h | h
    · exact onPath_of_base (.inl h)
    · exact onPath_of_base ((List.mem_append.1 h).elim .inr containers_of_selector)

theorem container_mem_removal : p.container ∈ (removal p).containers := by
  unfold removal
  split
  · simp [Removal.containers, Expr.containers]
  · exact List.mem_cons_self

/-- A test goes through the container of its pointer. -/
theorem containers_of_assertion {name : String} (h : c ∈ (assertion p (.param name)).containers) :
    OnPath p.parents c := by
  simp only [assertion, Statement.containers, Expr.containers, List.append_nil, List.nil_append,
    List.mem_append, or_self] at h
  exact onPath_of_base (containers_of_accessor h)

theorem container_mem_assertion {expected : Expr} :
    p.container ∈ (assertion p expected).containers :=
  List.mem_append_left _ (List.mem_append_left _ base_mem_accessor)

end

namespace Edit

variable {edits : List Edit} {edit : Edit} {index : Nat} {e : Emission}

/-- The guards of an edit secure the containers of all its pointers. -/
theorem Resolved.leadsTo_guards (hr : edit.Resolved) (edits : List Edit) (create : Bool)
    {p : Pointer} (hp : p ∈ edit.pointers) : LeadsTo edits p.parents (edit.guards create) := by
  cases edit with
  | add target v =>
    obtain rfl := List.mem_singleton.1 hp
    exact Emission.leadsTo_insertable edits (hr.inserted p (List.mem_singleton_self p)) create
  | replace target v | test target v | remove target =>
    obtain rfl := List.mem_singleton.1 hp
    obtain ⟨hresolved, hk⟩ := hr.required p (List.mem_singleton_self p)
    exact Emission.leadsTo_existing edits hresolved hk
  | copy source target | move source target =>
    obtain ⟨hresolved, hk⟩ := hr.required source (List.mem_singleton_self source)
    have hs := Emission.leadsTo_existing edits hresolved hk
    have ht := Emission.leadsTo_insertable edits
      (hr.inserted target (List.mem_singleton_self target)) false
    rcases List.mem_cons.1 hp with rfl | hp
    · exact (hs.append ht).1
    · obtain rfl := List.mem_singleton.1 hp
      exact (hs.append ht).2

/-- An effect of an edit goes through the container of one of its pointers, and through no other
containers than those on the way of its pointers. -/
theorem containers_of_mem_effects (he : e ∈ edit.effects index) :
    (∃ p ∈ edit.pointers, p.container ∈ e.statement.containers) ∧
      ∀ c ∈ e.statement.containers, ∃ p ∈ edit.pointers, OnPath p.parents c := by
  cases edit with
  | add target v | replace target v =>
    obtain rfl := List.mem_singleton.1 he
    refine ⟨⟨target, List.mem_cons_self, container_mem_assignment _ _ _⟩, fun c hc => ?_⟩
    exact ⟨target, List.mem_cons_self,
      (containers_of_assignment hc).resolve_right (by simp [Expr.containers])⟩
  | remove target =>
    obtain rfl := List.mem_singleton.1 he
    exact ⟨⟨target, List.mem_cons_self, container_mem_removal⟩, fun c hc =>
      ⟨target, List.mem_cons_self, containers_of_removal hc⟩⟩
  | test target v =>
    obtain rfl := List.mem_singleton.1 he
    exact ⟨⟨target, List.mem_cons_self, container_mem_assertion⟩, fun c hc =>
      ⟨target, List.mem_cons_self, containers_of_assertion hc⟩⟩
  | copy source target =>
    have htarget : target ∈ (copy source target).pointers :=
      List.mem_cons_of_mem _ (List.mem_singleton_self target)
    obtain rfl := List.mem_singleton.1 he
    refine ⟨⟨target, htarget, container_mem_assignment _ _ _⟩, fun c hc => ?_⟩
    rcases containers_of_assignment hc with hc | hc
    · exact ⟨target, htarget, hc⟩
    · exact ⟨source, List.mem_cons_self, onPath_of_base (containers_of_accessor hc)⟩
  | move source target =>
    have htarget : target ∈ (move source target).pointers :=
      List.mem_cons_of_mem _ (List.mem_singleton_self target)
    rcases List.mem_cons.1 he with rfl | he
    · exact ⟨⟨source, List.mem_cons_self, container_mem_removal⟩, fun c hc =>
        ⟨source, List.mem_cons_self, containers_of_removal hc⟩⟩
    · obtain rfl := List.mem_singleton.1 he
      refine ⟨⟨target, htarget, container_mem_assignment _ _ _⟩, fun c hc => ?_⟩
      exact ⟨target, htarget,
        (containers_of_assignment hc).resolve_right (by simp [Expr.containers])⟩

/-- Every pointer of an edit is used by one of its effects. -/
theorem exists_container_mem_effects (index : Nat) {p : Pointer} (hp : p ∈ edit.pointers) :
    ∃ e ∈ edit.effects index, p.container ∈ e.statement.containers := by
  cases edit with
  | add target v | replace target v =>
    obtain rfl := List.mem_singleton.1 hp
    exact ⟨_, List.mem_cons_self, container_mem_assignment _ _ _⟩
  | remove target =>
    obtain rfl := List.mem_singleton.1 hp
    exact ⟨_, List.mem_cons_self, container_mem_removal⟩
  | test target v =>
    obtain rfl := List.mem_singleton.1 hp
    exact ⟨_, List.mem_cons_self, container_mem_assertion⟩
  | copy source target =>
    rcases List.mem_cons.1 hp with rfl | hp
    · exact ⟨_, List.mem_cons_self, container_mem_assignment_value base_mem_accessor⟩
    · obtain rfl := List.mem_singleton.1 hp
      exact ⟨_, List.mem_cons_self, container_mem_assignment _ _ _⟩
  | move source target =>
    rcases List.mem_cons.1 hp with rfl | hp
    · exact ⟨_, List.mem_cons_self, container_mem_removal⟩
    · obtain rfl := List.mem_singleton.1 hp
      exact ⟨_, List.mem_cons_of_mem _ List.mem_cons_self, container_mem_assignment _ _ _⟩

theorem exists_mem_pointers (edit : Edit) : ∃ p, p ∈ edit.pointers := by
  cases edit <;> exact ⟨_, List.mem_cons_self⟩

/-- Every statement of an edit goes through some container. -/
theorem Resolved.exists_mem_containers (hr : edit.Resolved) {create : Bool}
    (he : e ∈ edit.emissions create index) : ∃ path, chain path ∈ e.statement.containers := by
  rw [edit.emissions_eq] at he
  rcases List.mem_append.1 he with he | he
  · obtain ⟨p, hp⟩ := edit.exists_mem_pointers
    exact (hr.leadsTo_guards [] create hp).tests e he
  · obtain ⟨⟨p, -, hcontainer⟩, -⟩ := containers_of_mem_effects he
    exact ⟨p.parents, hcontainer⟩

/-- An edit goes through secured containers only. -/
theorem Resolved.grounded_emissions (hr : edit.Resolved) (hedit : edits[index]? = some edit)
    (create : Bool) : Grounded edits (edit.emissions create index) := by
  obtain ⟨q, hq⟩ := edit.exists_mem_pointers
  have hguards := (hr.leadsTo_guards edits create hq).grounded
  have hsecured {e : Emission} (he : e ∈ edit.effects index) (c : Expr)
      (hc : c ∈ e.statement.containers) :
      ∃ path, c = chain path ∧ SecuredAt edits (edit.guards create) e path := by
    obtain ⟨p, hp, hon⟩ := (containers_of_mem_effects he).2 c hc
    exact SecuredAt.of_onPath (.inl (hr.leadsTo_guards edits create hp).secured) hon
  rw [edit.emissions_eq]
  cases edit with
  | move source target =>
    rw [effects, ← List.singleton_append, ← List.append_assoc]
    refine (hguards.append_singleton (hsecured List.mem_cons_self)).append_singleton fun c hc => ?_
    -- The assignment relies on what was in force before the removal.
    have hmem : target ∈ (move source target).pointers :=
      List.mem_cons_of_mem _ (List.mem_singleton_self target)
    have htarget := (hr.leadsTo_guards edits create hmem).secured
    refine SecuredAt.of_onPath (.inr ⟨index, source, target, _, _, hedit, rfl, rfl, htarget⟩) ?_
    exact (containers_of_assignment hc).resolve_right (by simp [Expr.containers])
  | _ => exact hguards.append_singleton (hsecured (List.mem_singleton_self _))

end Edit

/-- Edits one after the other go through secured containers only. -/
theorem grounded_emissions {edits : List Edit} (hr : ∀ edit ∈ edits, edit.Resolved)
    (create : Bool) : Grounded edits (emissions create edits) := by
  have hrun (rest : List (Edit × Nat)) (hrest : ∀ x ∈ rest, edits[x.2]? = some x.1) :
      Grounded edits (rest.flatMap fun x => x.1.emissions create x.2) := by
    induction rest with
    | nil => exact grounded_nil
    | cons x rest ih =>
      obtain ⟨hx, hrest⟩ := List.forall_mem_cons.1 hrest
      exact ((hr x.1 (List.mem_of_getElem? hx)).grounded_emissions hx create).append (ih hrest)
  exact hrun _ fun x hx => List.mk_mem_zipIdx_iff_getElem?.1 hx

/-- Every container that a line of a script goes through is led to by one list of segments, and
guards in force see to every one of them: in any state they abort the script unless the segments lead
to something, or they add what is missing. The guards stand before the line with no removal in
between; only the assignment of a move relies on guards before the removal of the same move. Every
line goes through some container, and the container of every pointer of an operation is among those
that the lines of its effects go through. -/
theorem secured_of_compile {create : Bool} {lang : String} {operations : List Operation}
    {s : Script} (h : compile create lang operations = .ok s) :
    ∃ edits kept, operations.mapM Operation.resolve = .ok edits ∧
      kept = withoutRepeats [] (emissions create edits) ∧
      s.instructions = kept.map Emission.line ∧
      (∀ before e after, kept = before ++ e :: after →
        (∀ c ∈ e.statement.containers, ∃ path, c = chain path) ∧
        ∀ path, chain path ∈ e.statement.containers → SecuredAt edits before e path) ∧
      (∀ e ∈ kept, ∃ path, chain path ∈ e.statement.containers) ∧
      ∀ (i : Nat) (edit : Edit), edits[i]? = some edit → ∀ p ∈ edit.pointers,
        ∃ e ∈ kept, e ∈ edit.effects i ∧ p.container ∈ e.statement.containers := by
  obtain ⟨edits, hedits, hr, hlines, -⟩ := instructions_of_compile h
  have hgrounded := (grounded_emissions hr create).withoutRepeats
  refine ⟨edits, _, hedits, rfl, hlines, fun before e after hsplit => ⟨fun c hc => ?_, ?_⟩,
    fun e he => ?_, fun i edit hedit p hp => ?_⟩
  · obtain ⟨path, hpath, -⟩ := hgrounded before e after hsplit c hc
    exact ⟨path, hpath⟩
  · intro path hpath
    obtain ⟨path', heq, hsecured⟩ := hgrounded before e after hsplit _ hpath
    rwa [chain_injective heq]
  · obtain ⟨x, hx, he⟩ := List.mem_flatMap.1 ((withoutRepeats_sublist _ _).subset he)
    exact (hr x.1 (List.fst_mem_of_mem_zipIdx hx)).exists_mem_containers he
  · obtain ⟨e, he, hcontainer⟩ := edit.exists_container_mem_effects i hp
    refine ⟨e, ?_, he, hcontainer⟩
    have hemitted : e ∈ edit.emissions create i := by
      rw [edit.emissions_eq]
      exact List.mem_append_right _ he
    refine mem_withoutRepeats_of_role _ ?_ (Edit.role_of_mem_effects he)
    exact List.mem_flatMap.2 ⟨(edit, i), List.mk_mem_zipIdx_iff_getElem?.2 hedit, hemitted⟩

theorem secured_of_compile_add_move :
    ∃ s edits before e,
      compile true defaultLang [.ofAdd "/a/b" .null, .ofMove "/a/b" "/c/d"] = .ok s ∧
      s.instructions = (before ++ [e]).map Emission.line ∧
      chain [.key "c"] ∈ e.statement.containers ∧ SecuredAt edits before e [.key "c"] := by
  obtain ⟨s, hs⟩ : ∃ s, compile true defaultLang
      [.ofAdd "/a/b" .null, .ofMove "/a/b" "/c/d"] = .ok s := ⟨_, rfl⟩
  obtain ⟨edits, kept, hedits, rfl, hlines, hsecured, -⟩ := secured_of_compile hs
  let source : Pointer := ⟨"/a/b", [.key "a"], .key "b"⟩
  let target : Pointer := ⟨"/c/d", [.key "c"], .key "d"⟩
  have hresolve : [Operation.ofAdd "/a/b" .null, .ofMove "/a/b" "/c/d"].mapM Operation.resolve =
      .ok [.add source .null, .move source target] := by rfl
  obtain rfl : edits = [.add source .null, .move source target] :=
    (Except.ok.inj (hresolve.symm.trans hedits)).symm
  let e : Emission := ⟨.effect, assignment target .insert (.binding (Edit.localName source 1))⟩
  have hrole : e.role ≠ .guard := by simp [e]
  have hsplit : withoutRepeats [] (emissions true [.add source .null, .move source target]) =
      withoutRepeats [] ((Edit.add source .null).emissions true 0 ++ Emission.existing source ++
        Emission.insertable target false ++
        [⟨.removal, .define (Edit.localName source 1) (removal source)⟩]) ++ [e] := by
    rw [← withoutRepeats_append_singleton [] _ hrole]
    rfl
  have hcontainer : target.container ∈ e.statement.containers :=
    container_mem_assignment target .insert (.binding (Edit.localName source 1))
  exact ⟨s, _, _, e, hs, hlines.trans (congrArg _ hsplit), hcontainer,
    (hsecured _ e [] hsplit).2 _ hcontainer⟩

end Catalog.Patch
