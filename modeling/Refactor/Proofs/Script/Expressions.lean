import Refactor.Script.ExtractValue
import Refactor.Proofs.Script.Trees

/-!
# Selected expressions

The search for a selected expression walks down from the module and hands every child the frame of its place. The statement
of the frame it ends with encloses the expression, so a declaration before the statement comes before the expression.

* `Framed` — a node below another one, with the frame of its place
* `findExpr_spec` — what the search finds
* `found_start_isCut`, `found_start_le` — where the statement around it starts
* `importBlockEnd_spec`, `mem_literalSites` — where a constant goes and what it stands for
* `extractVariable_eq_ok`, `extractConstant_eq_ok` — the edits
-/

namespace Refactor.Script

open Text (utf8Size)

/-! ## Frames -/

/-- The second node is below the first one, with the second frame when the first node has the first. -/
inductive Framed : Node → Frame → Node → Frame → Prop where
  | here {n : Node} {frame : Frame} : Framed n frame n frame
  | kid {n k m : Node} {frame frame' frame'' : Frame} {i : Nat} (hk : k ∈ n.kids)
      (hframe : Frame.ofChild n frame i k = some frame') (h : Framed k frame' m frame'') : Framed n frame m frame''

theorem findExprIn_eq_some {lo hi : Nat} {frames : Nat → Node → Option Frame} {found : FoundExpression} :
    ∀ {i : Nat} {ks : List Node}, findExprIn lo hi frames i ks = some found →
      ∃ k ∈ ks, ∃ j frame, frames j k = some frame ∧ findExpr lo hi frame k = some found
  | _, [], h => by cases h
  | i, k :: ks, h => by
    rw [findExprIn] at h
    split at h
    · rename_i found' hfound
      split at hfound
      · rename_i frame hframe
        cases h
        exact ⟨k, List.mem_cons_self, i, frame, hframe, hfound⟩
      · cases hfound
    · obtain ⟨k', hk', hspec⟩ := findExprIn_eq_some h
      exact ⟨k', List.mem_cons_of_mem k hk', hspec⟩

/-- The search finds an expression that covers exactly the range, with the frame of its place. -/
theorem findExpr_spec {lo hi : Nat} {n : Node} {frame : Frame} {found : FoundExpression}
    (h : findExpr lo hi frame n = some found) :
    ∃ m, Framed n frame m found.frame ∧ m.isExpr = true ∧ m.lo = lo ∧ m.hi = hi ∧ found.literal = m.isPlainLiteral := by
  induction n using Node.inductOn generalizing frame with
  | h n ih =>
    cases n with
    | mk role form l r kids =>
    rw [findExpr] at h
    split at h
    · rename_i hthis
      simp only [Bool.and_eq_true, beq_iff_eq] at hthis
      cases h
      exact ⟨_, .here, hthis.1.1, hthis.1.2, hthis.2, rfl⟩
    · obtain ⟨k, hk, i, frame', hframe, hfound⟩ := findExprIn_eq_some h
      obtain ⟨m, hm, hspec⟩ := ih k hk hfound
      exact ⟨m, .kid hk hframe hm, hspec⟩

theorem ofChild_cases {n k : Node} {frame frame' : Frame} {i : Nat} (h : Frame.ofChild n frame i k = some frame') :
    frame' = .closed ∨ frame' = .arrowBody ∨ frame' = frame ∨ frame' = .statement n.lo := by
  unfold Frame.ofChild at h
  grind

theorem ofChild_decorator {n k : Node} {frame frame' : Frame} {i : Nat} (hn : n.form = .decorator)
    (h : Frame.ofChild n frame i k = some frame') : frame' = .closed := by
  unfold Frame.ofChild at h
  grind

theorem Framed.statement_cases {n m : Node} {frame frame' : Frame} (h : Framed n frame m frame') {a : Nat}
    (ha : frame' = .statement a) : frame = .statement a ∨ ∃ k ∈ n.all, k.lo = a := by
  induction h with
  | here => exact Or.inl ha
  | kid hk hframe _ ih =>
    rcases ih ha with rfl | ⟨x, hx, hlo⟩
    · rcases ofChild_cases hframe with hkind | hkind | hkind | hkind
      · cases hkind
      · cases hkind
      · exact Or.inl hkind.symm
      · cases hkind
        exact Or.inr ⟨_, Node.mem_all_self _, rfl⟩
    · exact Or.inr ⟨x, Node.mem_all_iff.mpr (Or.inr ⟨_, hk, hx⟩), hlo⟩

/-- A statement that frames a node starts where the node does or before. Only an empty slot or a decorator can come first,
and neither holds an expression that the statement frames. -/
theorem Framed.statement_le {n m : Node} {frame frame' : Frame} (h : Framed n frame m frame')
    (hinside : ∀ x ∈ n.all, ∀ k ∈ x.kids, k.isLoose = true ∨ x.lo ≤ k.lo)
    (hframe : ∀ a, frame = .statement a → n.isLoose = true ∨ a ≤ n.lo) :
    ∀ a, frame' = .statement a → m.isLoose = true ∨ a ≤ m.lo := by
  induction h with
  | here => exact hframe
  | @kid n k m frame frame' frame'' i hk hof _ ih =>
    refine ih (fun x hx => hinside x (Node.mem_all_iff.mpr (Or.inr ⟨k, hk, hx⟩))) fun a ha => ?_
    subst ha
    by_cases hloose : n.isLoose = true
    · simp only [Node.isLoose, Bool.and_eq_true, Bool.or_eq_true, List.isEmpty_iff, beq_iff_eq] at hloose
      rcases hloose with ⟨-, ⟨-, hempty⟩ | hdecorator⟩
      · rw [hempty] at hk
        cases hk
      · cases ofChild_decorator hdecorator hof
    · have hstart : a ≤ n.lo := by
        rcases ofChild_cases hof with hkind | hkind | hkind | hkind
        · cases hkind
        · cases hkind
        · exact (hframe a hkind.symm).resolve_left hloose
        · cases hkind
          exact Nat.le_refl _
      exact (hinside n (Node.mem_all_self n) k hk).imp_right hstart.trans

variable {s : Source} {p : Parsed} {lo hi : Nat} {found : FoundExpression} {a : Nat}

theorem frame_start_eq_ok {frame : Frame} (h : frame.start = .ok a) : frame = .statement a := by
  cases frame with
  | statement lo =>
    cases h
    rfl
  | arrowBody => cases h
  | closed => cases h

theorem findExpression_spec (h : findExpression p lo hi = .ok found) :
    ∃ m, Framed p.module .closed m found.frame ∧ m.isExpr = true ∧ m.lo = lo ∧ m.hi = hi ∧
      found.literal = m.isPlainLiteral := by
  unfold findExpression at h
  split at h
  · rename_i found' hfound
    cases h
    exact findExpr_spec hfound
  · cases h

theorem found_start_isCut (h : p.Placed s) (hfound : findExpression p lo hi = .ok found)
    (hstart : found.frame.start = .ok a) : s.IsCut a := by
  obtain ⟨m, hframed, -⟩ := findExpression_spec hfound
  rcases hframed.statement_cases (frame_start_eq_ok hstart) with hclosed | ⟨k, hk, rfl⟩
  · cases hclosed
  · exact (h.nodes k hk).1

theorem found_start_le (h : p.WellNested s) (hfound : findExpression p lo hi = .ok found)
    (hstart : found.frame.start = .ok a) : a ≤ lo := by
  obtain ⟨m, hframed, hexpr, rfl, -⟩ := findExpression_spec hfound
  rcases hframed.statement_le h.inside (fun a ha => by cases ha) a (frame_start_eq_ok hstart) with hloose | hle
  · -- an expression is neither an empty slot nor a decorator
    simp only [Node.isLoose, Bool.and_eq_true, beq_iff_eq] at hloose
    simp [Node.isExpr, hloose.1] at hexpr
  · exact hle

/-! ## Imports -/

theorem foldl_max_mem (start : Nat) : ∀ ends : List Nat, ends.foldl max start = start ∨ ends.foldl max start ∈ ends
  | [] => Or.inl rfl
  | e :: es => by
    rw [List.foldl_cons]
    rcases foldl_max_mem (max start e) es with hmax | hmax
    · rw [hmax]
      rcases Nat.le_total start e with hle | hle
      · rw [Nat.max_eq_right hle]
        exact Or.inr List.mem_cons_self
      · exact Or.inl (Nat.max_eq_left hle)
    · exact Or.inr (List.mem_cons_of_mem e hmax)

theorem importBlockEnd_spec (h : importBlockEnd s p = .ok a) : a = 0 ∨ ∃ n ∈ p.body, s.LineEnd n.hi a := by
  obtain ⟨ends, hends, h⟩ := bind_eq_ok h
  cases h
  refine (foldl_max_mem 0 ends).imp_right fun hmem => ?_
  obtain ⟨n, hn, hline⟩ := (mapM_eq_ok hends).1 _ hmem
  exact ⟨n, (List.mem_filter.mp hn).1, Source.lineEnd_spec hline⟩

theorem aligned_importBlockEnd (h : p.Placed s) : Aligned (importBlockEnd s p) := by
  refine (Aligned.mapM fun n hn => ?_).bind fun ends _ => Aligned.ok _
  have hn : n ∈ p.module.all := Node.mem_all_of_mem_kids (List.mem_filter.mp hn).1
  exact Aligned.of_eq_ok (Source.exists_lineEnd (h.nodes n hn).2.1)

theorem mem_literalSites {text : List Char} {o : Nat} : o ∈ literalSites s p text ↔
    ∃ n ∈ p.module.all, n.isExpr = true ∧ n.isPlainLiteral = true ∧ Text.slice? s n.lo n.hi = some text ∧ n.lo = o := by
  simp [literalSites, and_assoc]

/-! ## Edits -/

variable {range : Span} {name : String} {es : List TextEdit}

theorem extractVariable_eq_ok (h : extractVariable s (.ok p) range name = .ok es) :
    ∃ lo hi found stmt first declaration e e', s.selection range = .ok (lo, hi) ∧ findExpression p lo hi = .ok found ∧
      found.frame.start = .ok stmt ∧ s.lineStart stmt = .ok first ∧ s.inserting first declaration = .ok e ∧
      s.replacing lo hi name.toList = .ok e' ∧
      es = [e.describedAs ("Declare '" ++ name ++ "'"), e'.describedAs ("Use '" ++ name ++ "'")] := by
  obtain ⟨⟨lo, hi⟩, hselection, h⟩ := bind_eq_ok h
  obtain ⟨p', hp, h⟩ := bind_eq_ok h
  cases hp
  obtain ⟨found, hfound, h⟩ := bind_eq_ok h
  obtain ⟨stmt, hstmt, h⟩ := bind_eq_ok h
  obtain ⟨-, h⟩ := unless_eq_ok h
  obtain ⟨first, hfirst, h⟩ := bind_eq_ok h
  obtain ⟨before, -, h⟩ := bind_eq_ok h
  obtain ⟨-, h⟩ := unless_eq_ok h
  obtain ⟨text, -, h⟩ := bind_eq_ok h
  obtain ⟨⟨front, rest⟩, -, h⟩ := bind_eq_ok h
  obtain ⟨e, he, h⟩ := bind_eq_ok h
  obtain ⟨e', he', h⟩ := bind_eq_ok h
  cases h
  exact ⟨lo, hi, found, stmt, first, _, e, e', hselection, hfound, hstmt, hfirst, he, he', rfl⟩

theorem extractConstant_eq_ok (h : extractConstant s (.ok p) range name = .ok es) :
    ∃ lo hi first text declaration e uses, s.selection range = .ok (lo, hi) ∧ importBlockEnd s p = .ok first ∧
      s.slice lo hi = .ok text ∧ s.inserting first declaration = .ok e ∧
      (∀ e' ∈ uses, ∃ o ∈ literalSites s p text, first ≤ o ∧ usingConstant s name (utf8Size text) o = .ok e') ∧
      es = e.describedAs ("Declare constant '" ++ name ++ "'") :: uses := by
  obtain ⟨⟨lo, hi⟩, hselection, h⟩ := bind_eq_ok h
  obtain ⟨p', hp, h⟩ := bind_eq_ok h
  cases hp
  obtain ⟨-, h⟩ := unless_eq_ok h
  obtain ⟨-, h⟩ := unless_eq_ok h
  obtain ⟨first, hfirst, h⟩ := bind_eq_ok h
  obtain ⟨-, h⟩ := unless_eq_ok h
  obtain ⟨text, htext, h⟩ := bind_eq_ok h
  obtain ⟨e, he, h⟩ := bind_eq_ok h
  obtain ⟨uses, huses, h⟩ := bind_eq_ok h
  cases h
  refine ⟨lo, hi, first, text, _, e, uses, hselection, hfirst, htext, he, fun e' he' => ?_, rfl⟩
  obtain ⟨o, ho, hspec⟩ := (mapM_eq_ok huses).1 e' he'
  obtain ⟨hsite, hlate⟩ := List.mem_filter.mp (List.mem_mergeSort.mp ho)
  exact ⟨o, hsite, of_decide_eq_true hlate, hspec⟩

end Refactor.Script
