import Refactor.Script.Inline
import Refactor.Proofs.Script.Trees

/-!
# Inlined variables

A walk over the tree hands every node the end of the block around it. A variable that is inlined is a declaration that the
walk finds, and the reads of its name from the declaration to that end are replaced by its value.

* `Enclosed` — a node below another one, with the end of the block around it
* `VariableDecl.IsOf`, `mem_declarationsOf` — the declarations of a name
* `Inlining.IsSound`, `inliningAt_spec` — a variable that can be inlined
* `inlineVariable_eq_ok` — the edits
* `inlineVariable_replaces` — every read behind the declaration is replaced
-/

namespace Refactor.Script

open Text (utf8Size)

/-! ## Declarations -/

/-- The second node is below the first one. With it go whether an export holds it directly and where the innermost block
around it ends. -/
inductive Enclosed : Node → Bool × Nat → Node → Bool × Nat → Prop where
  | here {n : Node} {around : Bool × Nat} : Enclosed n around n around
  | kid {n k m : Node} {around around' : Bool × Nat} (hk : k ∈ n.kids)
      (h : Enclosed k (n.form == .exportDecl, if n.form == .block then n.hi else around.2) m around') :
      Enclosed n around m around'

theorem Enclosed.mem_all {n m : Node} {around around' : Bool × Nat} (h : Enclosed n around m around') : m ∈ n.all := by
  induction h with
  | here => exact Node.mem_all_self _
  | kid hk _ ih => exact Node.mem_all_iff.mpr (Or.inr ⟨_, hk, ih⟩)

/-- A declaration of a name is a node that declares variables, with the one of its declarators that names it. -/
structure VariableDecl.IsOf (d : VariableDecl) (s : Source) (name : String) (n declarator : Node) : Prop where
  form : n.form = .varDecl d.kind
  lo : d.lo = n.lo
  hi : s.afterSemicolon n.hi = .ok d.hi
  among : declarator ∈ n.kids
  named : (declarator.kid 0).form = .ident name
  nameLo : d.nameLo = (declarator.kid 0).lo
  declarators : d.declarators = n.kids.length
  value : d.value = if (declarator.kid 1).isAbsent then none
    else some ((declarator.kid 1).lo, (declarator.kid 1).hi, needsParens (declarator.kid 1))

variable {s : Source} {name : String} {d : VariableDecl} {ds : List VariableDecl}

theorem mem_declarationsBy {exported : Bool} {stop : Nat} {n : Node}
    (h : declarationsBy s name exported stop n = .ok ds) (hd : d ∈ ds) :
    (∃ declarator, d.IsOf s name n declarator) ∧ d.exported = exported ∧ d.scopeEnd = stop := by
  unfold declarationsBy at h
  split at h
  · rename_i kind hform
    obtain ⟨hi, hhi, h⟩ := bind_eq_ok h
    cases h
    obtain ⟨declarator, hdeclarator, hsome⟩ := List.mem_filterMap.mp hd
    split at hsome
    · rename_i hnamed
      cases hsome
      exact ⟨⟨declarator, hform, rfl, hhi, hdeclarator, eq_of_beq hnamed, rfl, rfl, rfl⟩, rfl, rfl⟩
    · cases hsome
  · cases h
    cases hd

theorem mem_declarationsIn {exported : Bool} {stop : Nat} : ∀ {ns : List Node} {ds : List VariableDecl},
    declarationsIn s name exported stop ns = .ok ds → d ∈ ds →
      ∃ n ∈ ns, ∃ ds', declarationsOf s name exported stop n = .ok ds' ∧ d ∈ ds'
  | [], ds, h, hd => by
    rw [declarationsIn] at h
    cases h
    cases hd
  | n :: ns, ds, h, hd => by
    rw [declarationsIn] at h
    obtain ⟨first, hfirst, h⟩ := bind_eq_ok h
    obtain ⟨rest, hrest, h⟩ := bind_eq_ok h
    cases h
    rcases List.mem_append.mp hd with hd | hd
    · exact ⟨n, List.mem_cons_self, first, hfirst, hd⟩
    · obtain ⟨n', hn', hspec⟩ := mem_declarationsIn hrest hd
      exact ⟨n', List.mem_cons_of_mem n hn', hspec⟩

/-- The walk finds declarations of the name, each with what is around it. -/
theorem mem_declarationsOf {exported : Bool} {stop : Nat} {n : Node}
    (h : declarationsOf s name exported stop n = .ok ds) (hd : d ∈ ds) :
    ∃ m declarator, Enclosed n (exported, stop) m (d.exported, d.scopeEnd) ∧ d.IsOf s name m declarator := by
  induction n using Node.inductOn generalizing exported stop ds with
  | h n ih =>
    cases n with
    | mk role form lo hi kids =>
    rw [declarationsOf] at h
    obtain ⟨own, hown, h⟩ := bind_eq_ok h
    obtain ⟨below, hbelow, h⟩ := bind_eq_ok h
    cases h
    rcases List.mem_append.mp hd with hd | hd
    · obtain ⟨⟨declarator, hof⟩, rfl, rfl⟩ := mem_declarationsBy hown hd
      exact ⟨_, declarator, .here, hof⟩
    · obtain ⟨k, hk, ds', hds', hd⟩ := mem_declarationsIn hbelow hd
      obtain ⟨m, declarator, henclosed, hof⟩ := ih k hk hds' hd
      exact ⟨m, declarator, .kid hk henclosed, hof⟩

theorem declarationFor?_spec {o : Nat} (h : declarationFor? ds o = some d) :
    d ∈ ds ∧ (d.nameLo = o ∨ d.nameLo < o ∧ o < d.scopeEnd) := by
  rcases Option.or_eq_some_iff.mp h with hfound | ⟨-, hfound⟩
  · exact ⟨List.mem_of_find?_eq_some hfound, Or.inl (by simpa using List.find?_some hfound)⟩
  · exact ⟨List.mem_reverse.mp (List.mem_of_find?_eq_some hfound), Or.inr (by simpa using List.find?_some hfound)⟩

/-- The identifier at an offset holds it or ends there. -/
theorem identifierAt?_spec {p : Parsed} {offset o : Nat} (h : identifierAt? p offset = some (name, o)) :
    ∃ n ∈ p.module.all, identText? n = some name ∧ n.lo = o ∧ (n.lo ≤ offset ∧ offset < n.hi ∨ offset = n.hi) := by
  unfold identifierAt? at h
  obtain ⟨⟨name', lo, hi⟩, hfound, heq⟩ := Option.map_eq_some_iff.mp h
  cases heq
  have hspec : (name, o, hi) ∈ p.module.all.filterMap (fun n => (identText? n).map fun name => (name, n.lo, n.hi)) ∧
      (o ≤ offset ∧ offset < hi ∨ offset = hi) := by
    rcases Option.or_eq_some_iff.mp hfound with hfound | ⟨-, hfound⟩
    · exact ⟨List.mem_of_find?_eq_some hfound, Or.inl (by simpa using List.find?_some hfound)⟩
    · exact ⟨List.mem_of_find?_eq_some hfound, Or.inr (by simpa using List.find?_some hfound)⟩
  obtain ⟨n, hn, hident⟩ := List.mem_filterMap.mp hspec.1
  obtain ⟨name', hname, heq⟩ := Option.map_eq_some_iff.mp hident
  cases heq
  exact ⟨n, hn, hname, rfl, hspec.2⟩

/-! ## Variables -/

/-- A variable that can be inlined is declared by itself and with a value, not exported, and behind its declaration its
block neither binds its name again nor, unless it is a constant, assigns it. -/
structure Inlining.IsSound (t : Inlining) (s : Source) (p : Parsed) : Prop where
  declared : ∃ n declarator, Enclosed p.module (false, utf8Size s) n (false, t.decl.scopeEnd) ∧
    t.decl.IsOf s t.name n declarator
  single : t.decl.declarators ≤ 1
  value : t.decl.value = some (t.lo, t.hi, t.parens)
  unbound : ¬p.Binds t.name (t.decl.hi + 1) t.decl.scopeEnd
  unwritten : t.decl.kind = .fixed ∨ ¬p.Writes t.name t.decl.hi t.decl.scopeEnd

theorem inliningAt_spec {p : Parsed} {offset : Nat} {t : Inlining} (h : inliningAt s p offset = .ok t) :
    t.IsSound s p ∧ ∃ n ∈ p.module.all, identText? n = some t.name ∧
      (n.lo ≤ offset ∧ offset < n.hi ∨ offset = n.hi) ∧
      (t.decl.nameLo = n.lo ∨ t.decl.nameLo < n.lo ∧ n.lo < t.decl.scopeEnd) := by
  unfold inliningAt at h
  split at h
  · rename_i name o hident
    obtain ⟨ds, hds, h⟩ := bind_eq_ok h
    split at h
    · rename_i d hfor
      obtain ⟨hexported, h⟩ := unless_eq_ok h
      obtain ⟨hsingle, h⟩ := unless_eq_ok h
      dsimp only at h
      split at h
      · rename_i lo hi parens hvalue
        obtain ⟨hbound, h⟩ := unless_eq_ok h
        obtain ⟨hwritten, h⟩ := unless_eq_ok h
        cases h
        obtain ⟨hmem, hrefers⟩ := declarationFor?_spec hfor
        obtain ⟨n, declarator, henclosed, hof⟩ := mem_declarationsOf hds hmem
        rw [Bool.not_eq_true] at hexported
        rw [hexported] at henclosed
        obtain ⟨occurrence, hoccurrence, hname, rfl, hplace⟩ := identifierAt?_spec hident
        refine ⟨⟨⟨n, declarator, henclosed, hof⟩, Nat.le_of_not_lt hsingle, hvalue, ?_, ?_⟩,
          occurrence, hoccurrence, hname, hplace, hrefers⟩
        · rintro ⟨m, hm, o, ho, hlo, hhi⟩
          refine hbound (List.any_eq_true.mpr ⟨⟨name, o⟩, Parsed.mem_bindings.mpr ⟨m, hm, ho⟩, ?_⟩)
          simpa using And.intro (Nat.lt_of_succ_le hlo) hhi
        · simpa [Parsed.isWrittenBetween_iff, or_iff_not_imp_left] using hwritten
      · cases h
    · cases h
  · cases h

/-! ## Edits -/

variable {p : Parsed} {position : Position} {es : List TextEdit}

theorem inlineVariable_eq_ok (h : inlineVariable s (.ok p) position = .ok es) :
    ∃ offset t text removal uses, position.byteOffset? s = some offset ∧ inliningAt s p offset = .ok t ∧
      s.slice t.lo t.hi = .ok text ∧ t.removal s = .ok removal ∧
      ((Scope.ofModule p).readsBetween t.name t.decl.hi t.decl.scopeEnd).mapM (t.replacement s text) = .ok uses ∧
      es = removal :: uses := by
  unfold inlineVariable at h
  split at h
  · rename_i offset hoffset
    obtain ⟨p', hp, h⟩ := bind_eq_ok h
    cases hp
    obtain ⟨t, ht, h⟩ := bind_eq_ok h
    obtain ⟨text, htext, h⟩ := bind_eq_ok h
    obtain ⟨removal, hremoval, h⟩ := bind_eq_ok h
    obtain ⟨uses, huses, h⟩ := bind_eq_ok h
    cases h
    exact ⟨offset, t, text, removal, uses, hoffset, ht, htext, hremoval, huses, rfl⟩
  · cases h

/-- A removal takes a declaration, and its lines when they hold nothing but white space besides. -/
theorem removal_eq_ok {t : Inlining} {e : TextEdit} (h : t.removal s = .ok e) :
    ∃ first last before after e', s.replacing first last [] = .ok e' ∧
      e = (e'.withType .delete).describedAs ("Remove declaration of '" ++ t.name ++ "'") ∧
      (first = t.decl.lo ∨ s.LineStart t.decl.lo first) ∧ (last = t.decl.hi ∨ s.LineEnd t.decl.hi last) ∧
      s.slice first t.decl.lo = .ok before ∧ s.slice t.decl.hi last = .ok after ∧
      Source.isBlank before = true ∧ Source.isBlank after = true := by
  obtain ⟨⟨first, last, alone⟩, hlines, h⟩ := bind_eq_ok h
  obtain ⟨hfirst, hlast, before, after, hbefore, hafter, rfl⟩ := Source.linesAround_spec hlines
  dsimp only at h
  split at h
  · rename_i halone
    obtain ⟨e', he', h⟩ := bind_eq_ok h
    cases h
    obtain ⟨hblank, hblank'⟩ := Bool.and_eq_true_iff.mp halone
    exact ⟨first, last, before, after, e', he', rfl, Or.inr hfirst, Or.inr hlast, hbefore, hafter, hblank, hblank'⟩
  · obtain ⟨e', he', h⟩ := bind_eq_ok h
    cases h
    exact ⟨_, _, [], [], e', he', rfl, Or.inl rfl, Or.inl rfl, Source.slice_self (Source.slice_spec hbefore).2.1,
      Source.slice_self (Source.slice_spec hafter).1, rfl, rfl⟩

theorem replacement_eq_ok {t : Inlining} {text : List Char} {u : NameUse} {e : TextEdit}
    (h : t.replacement s text u = .ok e) : ∃ e', s.replacing u.lo u.hi (t.valueAt text u) = .ok e' ∧
      e = e'.describedAs ("Inline '" ++ t.name ++ "'") := by
  obtain ⟨e', he', h⟩ := bind_eq_ok h
  cases h
  exact ⟨e', he', rfl⟩

/-- Inlining removes one declaration, with white space of its lines at most, and from there to the end of the block around
it replaces every read of the name by the value, and nothing else. So a read that stays is before the end of the
declaration or outside the block. -/
theorem inlineVariable_replaces (h : inlineVariable s (.ok p) position = .ok es) :
    ∃ (t : Inlining) (text : List Char) (removal : TextEdit) (uses : List TextEdit), es = removal :: uses ∧
      t.IsSound s p ∧ s.slice t.lo t.hi = .ok text ∧
      (∃ first last before after, s.Replaces removal first last [] ∧ s.slice first t.decl.lo = .ok before ∧
        s.slice t.decl.hi last = .ok after ∧ Source.isBlank before = true ∧ Source.isBlank after = true) ∧
      (∀ n ∈ p.module.all, ∀ u, Scope.readBy n = some u → u.name = t.name → t.decl.hi ≤ n.lo → n.lo < t.decl.scopeEnd →
        ∃ e ∈ uses, s.Replaces e n.lo n.hi (t.valueAt text u)) ∧
      ∀ e ∈ uses, ∃ n ∈ p.module.all, ∃ u, Scope.readBy n = some u ∧ u.name = t.name ∧ t.decl.hi ≤ n.lo ∧
        n.lo < t.decl.scopeEnd ∧ s.Replaces e n.lo n.hi (t.valueAt text u) := by
  obtain ⟨offset, t, text, removal, uses, -, ht, htext, hremoval, huses, rfl⟩ := inlineVariable_eq_ok h
  obtain ⟨hfrom, hto⟩ := mapM_eq_ok huses
  have hreplaces : ∀ {n u e}, Scope.readBy n = some u → t.replacement s text u = .ok e →
      s.Replaces e n.lo n.hi (t.valueAt text u) := fun {n u e} hread he => by
    obtain ⟨e', he', rfl⟩ := replacement_eq_ok he
    obtain ⟨hlo, hhi, -⟩ := Parsed.readBy_spec hread
    rw [hlo, hhi] at he'
    exact Source.replaces_describedAs.mpr (Source.replaces_of_replacing he')
  refine ⟨t, text, removal, uses, rfl, (inliningAt_spec ht).1, htext, ?_, ?_, ?_⟩
  · obtain ⟨first, last, before, after, e', he', rfl, -, -, hslices⟩ := removal_eq_ok hremoval
    refine ⟨first, last, before, after, ?_, hslices⟩
    rw [Source.replaces_describedAs, Source.replaces_withType]
    exact Source.replaces_of_replacing he'
  · intro n hn u hread hname hlo hhi
    obtain ⟨e, he, hspec⟩ := hto u (Parsed.mem_readsBetween.mpr ⟨⟨n, hn, hread⟩, hname, by
      rw [(Parsed.readBy_spec hread).1]
      exact ⟨hlo, hhi⟩⟩)
    exact ⟨e, he, hreplaces hread hspec⟩
  · intro e he
    obtain ⟨u, hu, hspec⟩ := hfrom e he
    obtain ⟨⟨n, hn, hread⟩, hname, hrange⟩ := Parsed.mem_readsBetween.mp hu
    rw [(Parsed.readBy_spec hread).1] at hrange
    exact ⟨n, hn, u, hread, hname, hrange.1, hrange.2, hreplaces hread hspec⟩

/-- The variable is read in the line behind its own. -/
theorem inlineVariable_replaces_sample : ∃ (es : List TextEdit) (t : Inlining) (text : List Char),
    inlineVariable sampleText (.ok sample) ⟨1, 8⟩ = .ok es ∧
      es.map (fun e => (e.location, e.newText)) = [(⟨1, 0, 2, 0⟩, ""), (⟨2, 6, 2, 7⟩, "a")] ∧
      t.IsSound sampleText sample ∧ sampleText.slice t.lo t.hi = .ok text ∧
      ∀ e ∈ es.tail, ∃ n ∈ sample.module.all, ∃ u, Scope.readBy n = some u ∧ u.name = t.name ∧ t.decl.hi ≤ n.lo ∧
        n.lo < t.decl.scopeEnd ∧ sampleText.Replaces e n.lo n.hi (t.valueAt text u) := by
  have hedits : (inlineVariable sampleText (.ok sample) ⟨1, 8⟩).toOption.map
      (·.map fun e => (e.location, e.newText)) = some [(⟨1, 0, 2, 0⟩, ""), (⟨2, 6, 2, 7⟩, "a")] := by
    decide +kernel
  cases hresult : inlineVariable sampleText (.ok sample) ⟨1, 8⟩ with
  | error fault =>
    rw [hresult] at hedits
    cases hedits
  | ok es =>
    rw [hresult] at hedits
    obtain ⟨t, text, removal, uses, rfl, hsound, htext, -, -, hfrom⟩ := inlineVariable_replaces hresult
    exact ⟨removal :: uses, t, text, rfl, Option.some.inj hedits, hsound, htext, hfrom⟩

end Refactor.Script
