import Catalog.Proofs.Patch.Repeats
import Catalog.Proofs.Script.Access
import Catalog.Proofs.Script.Distinct

/-!
# What guards decide

The guards of a pointer test one segment after the other, from the document down. They let a script
go on exactly when the segments lead to something, and they leave its state as it is. Two guards
with equal lines are equal, since a line names the pointer that it is about, and the segments of the
pointer determine the rest.
-/

namespace Catalog.Patch

open Catalog.Script Segment

namespace Emission

variable {d : Dialect} {σ : State}

/-- The guards of segments one below the other, where others lead to their first container. -/
def existenceFrom : List Segment → List Segment → List Emission
  | _, [] => []
  | above, s :: rest =>
    presence (chain above) s (pointerText (above ++ [s])) :: existenceFrom (above ++ [s]) rest

theorem existenceFrom_append_singleton (above ss : List Segment) (s : Segment) :
    existenceFrom above (ss ++ [s]) = existenceFrom above ss ++
      [presence (chain (above ++ ss)) s (pointerText (above ++ ss ++ [s]))] := by
  induction ss generalizing above with
  | nil => simp [existenceFrom]
  | cons u ss ih =>
    rw [List.cons_append, existenceFrom, existenceFrom, ih, List.cons_append,
      List.append_assoc above [u] ss, List.singleton_append]

/-- A container that is not made has to be there. -/
theorem ancestor_false (p : Pointer) (depth : Nat) (s : Segment) :
    ancestor p false depth s =
      presence (chain (p.parents.take depth)) s (p.ancestorText (depth + 1)) := by
  cases s <;> rfl

private theorem map_ancestor_zipIdx {p : Pointer} (hp : p.Resolved) {above rest : List Segment}
    (h : p.parents = above ++ rest) :
    (rest.zipIdx above.length).map (fun (s, depth) => ancestor p false depth s) =
      existenceFrom above rest := by
  induction rest generalizing above with
  | nil => rfl
  | cons s rest ih =>
    have htake : p.parents.take above.length = above := by rw [h, List.take_left]
    have htext : p.ancestorText (above.length + 1) = pointerText (above ++ [s]) := by
      have hsegments : p.segments = (above ++ [s]) ++ (rest ++ [p.key]) := by
        rw [Pointer.segments, h]
        simp
      rw [hp.ancestorText_eq, hsegments, List.take_left' (by simp)]
    have hparents : p.parents = (above ++ [s]) ++ rest := by simp [h]
    have hrest := ih hparents
    rw [List.length_append, List.length_singleton] at hrest
    rw [List.zipIdx_cons, List.map_cons, hrest, existenceFrom]
    dsimp only
    rw [ancestor_false, htake, htext]

/-- The guards of the containers of a pointer, segment by segment. -/
theorem ancestors_eq {p : Pointer} (hp : p.Resolved) :
    ancestors p false = existenceFrom [] p.parents :=
  map_ancestor_zipIdx hp (List.nil_append _).symm

/-- The guards of a pointer whose member has to be there, segment by segment. -/
theorem existing_eq {p : Pointer} (hp : p.Resolved) :
    existing p = existenceFrom [] p.segments := by
  rw [existing, ancestors_eq hp, Pointer.segments, existenceFrom_append_singleton, hp.text_eq]
  rfl

/-- A demand that is met leaves the state as it is. -/
theorem exec_demand_of_true {c : Expr} (h : c.eval d σ = some (.bool true)) (pointer : String) :
    (demand c pointer).statement.exec d σ = some σ := by
  simp [demand, Statement.exec, Expr.eval, h, Json.asBool?]

/-- A demand that is not met aborts the script. -/
theorem exec_demand_of_ne {c : Expr} (h : c.eval d σ ≠ some (.bool true)) (pointer : String) :
    (demand c pointer).statement.exec d σ = none := by
  cases hc : c.eval d σ with
  | none => simp [demand, Statement.exec, Expr.eval, hc]
  | some j =>
    cases j with
    | bool b =>
      obtain rfl : b = false := by simpa [hc] using h
      simp [demand, Statement.exec, Expr.eval, hc, Json.asBool?]
    | _ => simp [demand, Statement.exec, Expr.eval, hc, Json.asBool?]

/-- The guard of a member lets a script go on exactly when the segments lead to something. -/
theorem exec_presence {above : List Segment} {s : Segment} (hr : s.IsRead) (ha : s ≠ .append)
    (pointer : String) :
    (presence (chain above) s pointer).statement.exec d σ =
      if (σ.document.get? (above ++ [s])).isSome then some σ else none := by
  rw [presence]
  split
  · next h => exact exec_demand_of_true ((eval_isPresent_chain hr ha above).2 h) pointer
  · next h => exact exec_demand_of_ne (fun he => h ((eval_isPresent_chain hr ha above).1 he)) pointer

/-- Guards of segments let a script go on exactly when the segments lead to something. -/
theorem exec_existenceFrom {above ss : List Segment} (hs : ∀ s ∈ ss, s.IsRead ∧ s ≠ .append)
    (habove : (σ.document.get? above).isSome) :
    exec d ((existenceFrom above ss).map Emission.statement) σ =
      if (σ.document.get? (above ++ ss)).isSome then some σ else none := by
  induction ss generalizing above with
  | nil => simp [existenceFrom, exec, habove]
  | cons s ss ih =>
    obtain ⟨⟨hr, ha⟩, hs⟩ := List.forall_mem_cons.1 hs
    have hsplit : above ++ s :: ss = (above ++ [s]) ++ ss := by simp
    rw [existenceFrom, List.map_cons, exec, List.foldlM_cons, exec_presence hr ha, hsplit]
    split
    · next h => exact ih hs h
    · next h =>
      rw [Json.get?_append, Option.not_isSome_iff_eq_none.1 h]
      rfl

/-- The guards of the containers of a pointer let a script go on exactly when its container is
there. -/
theorem exec_ancestors {p : Pointer} (hp : p.Resolved) :
    exec d ((ancestors p false).map Emission.statement) σ =
      if (σ.document.get? p.parents).isSome then some σ else none := by
  rw [ancestors_eq hp]
  refine exec_existenceFrom (fun s hs => ⟨?_, ?_⟩) rfl
  · exact hp.isRead s (List.mem_append_left _ hs)
  · exact ne_of_mem_of_not_mem hs hp.append_notMem

/-- The guards of a pointer whose member has to be there let a script go on exactly when the member
is there. -/
theorem exec_existing {p : Pointer} (hp : p.Resolved) (hk : p.key ≠ .append) :
    exec d ((existing p).map Emission.statement) σ =
      if (σ.document.get? p.segments).isSome then some σ else none := by
  rw [existing_eq hp]
  exact exec_existenceFrom (fun s hs => ⟨hp.isRead s hs, hp.ne_append hk hs⟩) rfl

/-- The guards that are about the pointer with these segments. -/
inductive IsAbout (above : List Segment) (s : Segment) : Emission → Prop where
  | presence : IsAbout above s (presence (chain above) s (pointerText (above ++ [s])))
  | insertable :
    IsAbout above s (demand (s.isInsertable (chain above)) (pointerText (above ++ [s])))

theorem IsAbout.exists_demand {above : List Segment} {s : Segment} {e : Emission}
    (h : IsAbout above s e) : ∃ c pointer, e = demand c pointer := by
  cases h with
  | presence => exact ⟨_, _, rfl⟩
  | insertable => exact ⟨_, _, rfl⟩

/-- The guards of segments are about the segments that lead up to each of them. -/
theorem mem_existenceFrom {above ss : List Segment} {e : Emission} :
    e ∈ existenceFrom above ss ↔ ∃ us s rest, ss = us ++ s :: rest ∧
      e = presence (chain (above ++ us)) s (pointerText (above ++ us ++ [s])) := by
  induction ss generalizing above with
  | nil => simp [existenceFrom]
  | cons u ss ih =>
    rw [existenceFrom, List.mem_cons, ih]
    constructor
    · rintro (rfl | ⟨us, s, rest, rfl, rfl⟩)
      · exact ⟨[], u, ss, rfl, by simp⟩
      · exact ⟨u :: us, s, rest, rfl, by simp⟩
    · rintro ⟨us, s, rest, hsplit, rfl⟩
      cases us with
      | nil =>
        obtain ⟨rfl, rfl⟩ := List.cons.inj hsplit
        exact .inl (by simp)
      | cons v us =>
        obtain ⟨rfl, rfl⟩ := List.cons.inj hsplit
        exact .inr ⟨us, s, rest, rfl, by simp⟩

/-- The line of a guard names its pointer. -/
theorem demand_pointer_inj {c c' : Expr} {pointer pointer' : String}
    (hw : (demand c pointer).statement.WellWritten)
    (hw' : (demand c' pointer').statement.WellWritten)
    (h : (demand c pointer).statement.text = (demand c' pointer').statement.text) :
    pointer = pointer' := by
  have hcut (c : Expr) (pointer : String) : ∃ front,
      lexemesOf (demand c pointer).statement.tokens =
        front ++ .literal (Text.quote (Failure.missingOpening ++ pointer)).toList ::
          lexemesOf [.code ");", .code " \x7d"] := by
    refine ⟨lexemesOf (.code "if (" :: (Expr.not c).tokens ++
      [.code ") \x7b ", .code "Debug.explain("]), ?_⟩
    simp [demand, Statement.tokens, Expr.tokens, Token.lexemes]
  obtain ⟨front, hfront⟩ := hcut c pointer
  obtain ⟨front', hfront'⟩ := hcut c' pointer'
  have hlexemes := congrArg Lexeme.ofChars (congrArg String.toList h)
  rw [← Statement.charsOf_tokens, ← Statement.charsOf_tokens, ofChars_charsOf hw.regular.allApart,
    ofChars_charsOf hw'.regular.allApart, hfront, hfront'] at hlexemes
  have hliteral :=
    (List.cons.inj (List.append_inj' hlexemes (by simp only [List.length_cons])).2).1
  rw [Lexeme.literal.injEq, String.toList_inj] at hliteral
  have happend := Token.quote_injective hliteral
  rw [← String.toList_inj, String.toList_append, String.toList_append] at happend
  exact String.toList_inj.1 (List.append_cancel_left happend)

/-- The text of a guard that makes a container ends with the accessor of the container. -/
theorem exists_lexemesOf_creation (above : List Segment) (name : String) : ∃ front,
    lexemesOf (creation (chain above) name).statement.tokens =
      front ++ (key name).ending ++
        lexemesOf [.code " = ", .code "new HashMap()", .code ";", .code " \x7d"] := by
  obtain ⟨front, hfront⟩ := exists_lexemesOf_accessor (chain above) (.key name)
  refine ⟨lexemesOf (.code "if (" :: (Expr.not (.containsKey (chain above) (.quoted name))).tokens ++
    [.code ") \x7b "]) ++ front, ?_⟩
  rw [List.append_assoc _ front, ← hfront]
  simp [creation, Statement.tokens, Expr.tokens]

theorem allApart_creation (above : List Segment) (name : String) :
    AllApart (creation (chain above) name).statement.tokens := by
  have hchain := allApart_chain above
  have haccessor := allApart_accessor hchain (.key name)
  simp +decide only [creation, Statement.tokens, Expr.tokens, allApart_append, allApart_cons,
    allApart_nil, hchain, haccessor, Token.quotesApart_quoted]

/-- A guard that makes a container is about the segments and the name in its line. -/
theorem creation_text_inj {above above' : List Segment} {name name' : String}
    (h : (creation (chain above) name).statement.text =
      (creation (chain above') name').statement.text) : above = above' ∧ name = name' := by
  have hlexemes := lexemesOf_eq_of_charsOf (allApart_creation above name)
    (allApart_creation above' name') (by rw [Statement.charsOf_tokens, Statement.charsOf_tokens, h])
  obtain ⟨front, hfront⟩ := exists_lexemesOf_creation above name
  obtain ⟨front', hfront'⟩ := exists_lexemesOf_creation above' name'
  rw [hfront, hfront', List.append_cancel_right_eq] at hlexemes
  have hkey := congrArg (fun ls => readLast ls.reverse) hlexemes
  simp only [readLast_ending, key.injEq] at hkey
  subst hkey
  have hlength : (chain above).text.length = (chain above').text.length := by
    have hcopies : (key name).copies = 1 := rfl
    have hlength := congrArg String.length h
    simp only [creation, Statement.text, Expr.text, String.length_append, length_text_accessor,
      hcopies, Nat.one_mul] at hlength
    omega
  have hchars := congrArg (fun t => t.toList.drop 5) h
  simp [creation, Statement.text, Expr.text] at hchars
  have hchain := (List.append_inj hchars (by rwa [String.length_toList, String.length_toList])).1
  exact ⟨text_chain_inj (String.toList_inj.1 hchain), rfl⟩

/-- A guard that makes a container is written differently from one that aborts the script. -/
theorem demand_text_ne_creation (c container : Expr) (pointer name : String) :
    (demand c pointer).statement.text ≠ (creation container name).statement.text := by
  intro h
  have hchars := congrArg (fun t => t.toList.reverse.drop 4) h
  simp [demand, creation, Statement.text, Expr.text, Text.quote] at hchars

/-- The text of a chain never starts with a negation. -/
theorem chain_text_head (ss : List Segment) :
    ∃ a, (chain ss).text.toList.head? = some a ∧ a ≠ '!' := by
  induction ss using List.reverseRecOn with
  | nil => exact ⟨'c', rfl, by decide⟩
  | append_singleton ss s ih =>
    obtain ⟨a, htext, ha⟩ := ih
    rw [chain_append_singleton]
    cases s with
    | key name =>
      refine ⟨a, ?_, ha⟩
      simp only [accessor]
      split
      · simp [Expr.text, htext]
      · simp [Expr.text, htext]
    | position n => exact ⟨'(', by simp [accessor, Expr.text], by decide⟩
    | fromEnd n => exact ⟨a, by simp [accessor, Expr.text, htext], ha⟩
    | append => exact ⟨a, by simp [accessor, Expr.text, htext], ha⟩

/-- The test whether a member is there is written differently from the test whether a value can be
inserted, unless they are the same test. -/
theorem insertable_eq_presence {above : List Segment} {s : Segment} {pointer : String}
    (h : (demand (s.isInsertable (chain above)) pointer).statement.text =
      (presence (chain above) s pointer).statement.text) :
    s.isInsertable (chain above) = s.isPresent (chain above) := by
  cases s with
  | position n =>
    obtain ⟨a, hhead, ha⟩ := chain_text_head above
    obtain ⟨rest, hrest⟩ : ∃ rest, (chain above).text.toList = a :: rest :=
      ⟨_, List.eq_cons_of_mem_head? hhead⟩
    have hchars := congrArg (fun t => t.toList.drop 6) h
    simp [presence, demand, isInsertable, isPresent, Statement.text, Expr.text, hrest] at hchars
    exact absurd hchars.1.symm ha
  | _ => rfl

/-- Guards about pointers are equal when their lines are. -/
theorem IsAbout.eq_of_text {above above' : List Segment} {s s' : Segment} {e e' : Emission}
    (he : IsAbout above s e) (he' : IsAbout above' s' e')
    (hr : ∀ t ∈ above ++ [s], t.IsRead) (hr' : ∀ t ∈ above' ++ [s'], t.IsRead)
    (hw : e.statement.WellWritten) (hw' : e'.statement.WellWritten)
    (h : e.statement.text = e'.statement.text) : e = e' := by
  have hsame (hp : pointerText (above ++ [s]) = pointerText (above' ++ [s'])) :
      above = above' ∧ s = s' := by
    obtain ⟨habove, hs⟩ := List.append_inj' (Pointer.pointerText_inj hr hr' hp) rfl
    exact ⟨habove, by simpa using hs⟩
  cases he with
  | presence =>
    cases he' with
    | presence =>
      obtain ⟨rfl, rfl⟩ := hsame (demand_pointer_inj hw hw' h)
      rfl
    | insertable =>
      obtain ⟨rfl, rfl⟩ := hsame (demand_pointer_inj hw hw' h)
      rw [insertable_eq_presence h.symm, Emission.presence]
  | insertable =>
    cases he' with
    | presence =>
      obtain ⟨rfl, rfl⟩ := hsame (demand_pointer_inj hw hw' h)
      rw [insertable_eq_presence h, Emission.presence]
    | insertable =>
      obtain ⟨rfl, rfl⟩ := hsame (demand_pointer_inj hw hw' h)
      rfl

theorem presence_isAbout_of_mem {p : Pointer} (hp : p.Resolved) {e : Emission}
    (he : e ∈ existenceFrom [] p.segments) :
    ∃ above s, (∀ t ∈ above ++ [s], t.IsRead) ∧ IsAbout above s e := by
  obtain ⟨us, s, rest, hsplit, rfl⟩ := mem_existenceFrom.1 he
  refine ⟨us, s, fun t ht => hp.isRead t ?_, .presence⟩
  rw [hsplit]
  rcases List.mem_append.1 ht with ht | ht
  · exact List.mem_append_left _ ht
  · rw [List.mem_singleton.1 ht]
    simp

theorem isAbout_of_mem_existing {p : Pointer} (hp : p.Resolved) {e : Emission}
    (he : e ∈ existing p) : ∃ above s, (∀ t ∈ above ++ [s], t.IsRead) ∧ IsAbout above s e :=
  presence_isAbout_of_mem hp (existing_eq hp ▸ he)

theorem isAbout_of_mem_insertable {p : Pointer} (hp : p.Resolved) {e : Emission}
    (he : e ∈ insertable p false) :
    ∃ above s, (∀ t ∈ above ++ [s], t.IsRead) ∧ IsAbout above s e := by
  rcases List.mem_append.1 he with he | he
  · refine isAbout_of_mem_existing hp (List.mem_append_left _ he)
  · split at he
    · rw [List.mem_singleton.1 he, hp.text_eq]
      exact ⟨p.parents, p.key, hp.isRead, .insertable⟩
    · simp at he

end Emission

namespace Edit

/-- The guards of an edit. -/
def guards (create : Bool) : Edit → List Emission
  | .add p _ => Emission.insertable p create
  | .replace p _ => Emission.existing p
  | .remove p => Emission.existing p
  | .test p _ => Emission.existing p
  | .copy source p => Emission.existing source ++ Emission.insertable p false
  | .move source p => Emission.existing source ++ Emission.insertable p false

/-- The statements of an edit behind its guards. -/
def effects (index : Nat) : Edit → List Emission
  | .add p _ => [⟨.effect, assignment p .insert (.param (localName p index))⟩]
  | .replace p _ => [⟨.effect, assignment p .overwrite (.param (localName p index))⟩]
  | .remove p => [⟨.removal, .discard (removal p)⟩]
  | .test p _ => [⟨.effect, assertion p (.param (localName p index))⟩]
  | .copy source p => [⟨.effect, assignment p .insert source.accessor⟩]
  | .move source p =>
    [⟨.removal, .define (localName source index) (removal source)⟩,
      ⟨.effect, assignment p .insert (.binding (localName source index))⟩]

/-- All guards of an edit stand before its other statements. -/
theorem emissions_eq (create : Bool) (index : Nat) (edit : Edit) :
    edit.emissions create index = edit.guards create ++ edit.effects index := by
  cases edit <;> rfl

theorem role_of_mem_effects {index : Nat} {edit : Edit} {e : Emission}
    (he : e ∈ edit.effects index) : e.role ≠ .guard := by
  cases edit with
  | move source p =>
    rcases List.mem_cons.1 he with rfl | he
    · simp
    · rw [List.mem_singleton.1 he]
      simp
  | _ =>
    rw [List.mem_singleton.1 he]
    simp

/-- The guards of an edit that makes no containers are about pointers. -/
theorem Resolved.isAbout_of_mem_guards {edit : Edit} (hr : edit.Resolved) {e : Emission}
    (he : e ∈ edit.guards false) :
    ∃ above s, (∀ t ∈ above ++ [s], t.IsRead) ∧ Emission.IsAbout above s e := by
  cases edit with
  | add p v =>
    exact Emission.isAbout_of_mem_insertable (hr.inserted p (List.mem_singleton_self p)) he
  | replace p v =>
    exact Emission.isAbout_of_mem_existing (hr.required p (List.mem_singleton_self p)).1 he
  | remove p =>
    exact Emission.isAbout_of_mem_existing (hr.required p (List.mem_singleton_self p)).1 he
  | test p v =>
    exact Emission.isAbout_of_mem_existing (hr.required p (List.mem_singleton_self p)).1 he
  | copy source p =>
    have hs := (hr.required source (List.mem_singleton_self source)).1
    have hp := hr.inserted p (List.mem_singleton_self p)
    exact (List.mem_append.1 he).elim (Emission.isAbout_of_mem_existing hs)
      (Emission.isAbout_of_mem_insertable hp)
  | move source p =>
    have hs := (hr.required source (List.mem_singleton_self source)).1
    have hp := hr.inserted p (List.mem_singleton_self p)
    exact (List.mem_append.1 he).elim (Emission.isAbout_of_mem_existing hs)
      (Emission.isAbout_of_mem_insertable hp)

end Edit

end Catalog.Patch
