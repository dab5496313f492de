import Refactor.Proofs.Script.Deletions

/-!
# What a deletion takes along

A deletion removes a declaration with its decorators and its semicolon. It removes more above the declaration, where the
lines of attached comments go with it, and behind it, where the rest of the line and a line of white space may go. All
of that is white space and comments.

* `Node.decorators`, `Parsed.SpansNest` — trees whose ranges are nested, with decorators before what they decorate
* `Parsed.CommentsExact` — comments that are those of the source
* `Spare` — nothing stands between two offsets but white space and comments
* `removalStart_spare`, `removal_stop` — what is removed above a declaration and behind it
* `deleteSymbol_spares` — what a deletion removes
-/

namespace Refactor.Script

open Text (utf8Size)

/-! ## Nested ranges -/

namespace Node

def leading (body : Node) : List Node := body.kids.takeWhile (·.form == .decorator)

def classDecorators (n : Node) : List Node :=
  match n.form with
  | .classDecl _ | .classExpr => (n.kid 1).leading
  | _ => []

/-- The decorators that may stand before a node: its own, or those of the class that it exports. -/
def decorators (n : Node) : List Node :=
  match n.form with
  | .classBody => n.leading
  | .functionBody => n.kids.filter (·.form == .decorator)
  | .exportDecl | .exportDefault => (n.kid 0).classDecorators
  | _ => n.classDecorators

def isName (n : Node) : Bool :=
  match n.form with
  | .ident _ => true
  | _ => false

/-- An offset in a node, or behind the start of one of its decorators. -/
def Spans (n : Node) (o : Nat) : Prop := (n.lo ≤ o ∨ ∃ d ∈ n.decorators, d.lo ≤ o) ∧ o < n.hi

end Node

namespace Parsed

/-- A tree whose ranges are nested as its nodes are: what is below a node lies in its range, or in that of one of its
decorators, which come in order. -/
structure SpansNest (p : Parsed) : Prop where
  inside : ∀ n ∈ p.module.all, n.isName = true ∨ ∀ m ∈ n.all,
    m.isAbsent = true ∨ n.lo ≤ m.lo ∧ m.hi ≤ n.hi ∨ ∃ d ∈ n.decorators, d.lo ≤ m.lo ∧ m.hi ≤ d.hi
  ordered : ∀ n ∈ p.module.all, n.decorators.Pairwise fun d e => d.lo ≤ e.lo
  before : ∀ n ∈ p.module.all, ∀ d ∈ n.decorators, d.hi ≤ n.hi

/-- A text that is a comment, to the end of its line or up to the first mark that ends it. -/
def IsComment (t : List Char) : Prop :=
  (∃ body, t = '/' :: '/' :: body ∧ body.all (!isLineEnd ·) = true) ∨
  ∃ body, t = '/' :: '*' :: body ++ ['*', '/'] ∧ ¬['*', '/'] <:+: body

/-- Comments that are comments of a source. -/
def CommentsExact (p : Parsed) (s : Source) : Prop :=
  ∀ c ∈ p.comments, ∃ t, s.slice c.lo c.hi = .ok t ∧ IsComment t

theorem CommentsExact.lo_le_hi {p : Parsed} {s : Source} (h : p.CommentsExact s) {c : Comment} (hc : c ∈ p.comments) :
    c.lo ≤ c.hi := by
  obtain ⟨t, hslice, -⟩ := h c hc
  obtain ⟨-, -, hsize⟩ := Source.slice_spec hslice
  omega

end Parsed

/-! ## The declaration -/

theorem Node.leading_head (body : Node) : body.leading.head?.map Node.lo =
    if (body.kid 0).form == .decorator then some (body.kid 0).lo else none := by
  rw [leading, kid]
  cases body.kids with
  | nil => rfl
  | cons d ks =>
    rw [List.takeWhile_cons, List.getD_cons_zero]
    cases d.form == .decorator <;> rfl

/-- What is described knows the first decorator of its class, and is no name. -/
theorem describe?_decorated {n : Node} {d : Described} (h : describe? n = some d) :
    d.decorated = n.classDecorators.head?.map Node.lo ∧ n.decorators = n.classDecorators ∧ n.isName = false := by
  unfold describe? at h
  split at h
  case h_2 name hform =>
    cases h
    refine ⟨?_, by simp [Node.decorators, hform], by simp [Node.isName, hform]⟩
    simp only [Node.classDecorators, hform]
    exact (Node.leading_head _).symm
  case h_3 kind hform =>
    split at h
    · cases h
      exact ⟨by simp [Node.classDecorators, hform], by simp [Node.decorators, hform], by simp [Node.isName, hform]⟩
    · cases h
  case h_7 => cases h
  all_goals
    rename_i hform
    cases h
    exact ⟨by simp [Node.classDecorators, hform], by simp [Node.decorators, hform], by simp [Node.isName, hform]⟩

theorem declarationOf?_decorated {n : Node} {f : FoundDeclaration} (h : declarationOf? n = some f) :
    f.described.decorated = n.decorators.head?.map Node.lo ∧ n.isName = false := by
  obtain ⟨d, hd, rfl⟩ := Option.map_eq_some_iff.mp h
  obtain ⟨inner, hinner, hdescribed⟩ := Option.bind_eq_some_iff.mp hd
  obtain ⟨hdecorated, hown, hname⟩ := describe?_decorated hdescribed
  show d.decorated = _ ∧ _
  split at hinner
  · rename_i hexport
    cases hinner
    have hexport : n.form = .exportDecl := eq_of_beq hexport
    exact ⟨by rw [hdecorated, Node.decorators, hexport], by simp [Node.isName, hexport]⟩
  · split at hinner
    · cases hinner
      exact ⟨by rw [hdecorated, hown], hname⟩
    · cases hinner

variable {s : Source} {p : Parsed} {n : Node} {f : FoundDeclaration}

/-- All that is below a declaration is in its range, decorators included. -/
theorem within_declaration (hp : p.SpansNest) (hn : n ∈ p.module.all) (h : declarationOf? n = some f) {m : Node}
    (hm : m ∈ n.all) : m.isAbsent = true ∨ f.start ≤ m.lo ∧ m.hi ≤ f.hi := by
  obtain ⟨hlo, hhi, -⟩ := declarationOf?_spec h
  have hstart : f.start ≤ n.lo := hlo ▸ Nat.min_le_right _ _
  obtain ⟨hdecorated, hname⟩ := declarationOf?_decorated h
  rcases ((hp.inside n hn).resolve_left (by simp [hname])) m hm with habsent | ⟨hmlo, hmhi⟩ | ⟨d, hd, hmlo, hmhi⟩
  · exact Or.inl habsent
  · exact Or.inr ⟨Nat.le_trans hstart hmlo, hhi ▸ hmhi⟩
  · -- the first decorator starts no later
    obtain ⟨first, rest, heq⟩ := List.exists_cons_of_ne_nil (List.ne_nil_of_mem hd)
    have hfirst : first.lo ≤ d.lo := by
      have hordered := hp.ordered n hn
      rw [heq] at hd hordered
      rcases List.mem_cons.mp hd with rfl | hd
      · exact Nat.le_refl _
      · exact (List.pairwise_cons.mp hordered).1 d hd
    have hstart : f.start ≤ first.lo := by
      rw [FoundDeclaration.start, hdecorated, heq]
      exact Nat.min_le_left _ _
    refine Or.inr ⟨Nat.le_trans hstart (Nat.le_trans hfirst hmlo), ?_⟩
    exact hhi ▸ Nat.le_trans hmhi (hp.before n hn d hd)

theorem spans_of_start_le (h : declarationOf? n = some f) {o : Nat} (hlo : f.start ≤ o) (hhi : o < n.hi) :
    n.Spans o := by
  refine ⟨?_, hhi⟩
  rcases f.start_cases with hown | hdecorated
  · exact Or.inl ((declarationOf?_spec h).1 ▸ hown ▸ hlo)
  · rw [(declarationOf?_decorated h).1] at hdecorated
    obtain ⟨d, hd, hstart⟩ := Option.map_eq_some_iff.mp hdecorated
    exact Or.inr ⟨d, List.mem_of_mem_head? hd, hstart ▸ hlo⟩

/-- The declaration on a line is the first one that starts there. -/
theorem firstOn_split {line : Nat} : ∀ {fs : List FoundDeclaration}, firstOn s line fs = .ok (some f) →
    ∃ before after, fs = before ++ f :: after ∧ f.startsOn s line = .ok true ∧
      ∀ g ∈ before, g.startsOn s line = .ok false
  | [], h => by cases h
  | g :: fs, h => by
    rw [firstOn] at h
    obtain ⟨starts, hstarts, h⟩ := bind_eq_ok h
    split at h
    · rename_i htrue
      cases h
      exact ⟨[], fs, rfl, htrue ▸ hstarts, by simp⟩
    · rename_i hfalse
      obtain ⟨before, after, rfl, hf, hbefore⟩ := firstOn_split h
      rw [Bool.not_eq_true] at hfalse
      exact ⟨g :: before, after, rfl, hf, List.forall_mem_cons.mpr ⟨hfalse ▸ hstarts, hbefore⟩⟩

/-! ## White space and comments -/

/-- Nothing stands between two offsets but white space and comments. -/
def Spare (s : Source) (cs : List Comment) (a b : Nat) : Prop :=
  ∀ front c back, s = front ++ c :: back → a ≤ utf8Size front → utf8Size front < b →
    Text.isBlank c = true ∨ ∃ comment ∈ cs, comment.lo ≤ utf8Size front ∧ utf8Size front < comment.hi

namespace Spare

variable {cs cs' : List Comment} {a b c : Nat}

theorem refl (s : Source) (cs : List Comment) (a : Nat) : Spare s cs a a := fun _ _ _ _ hle hlt =>
  absurd hle (Nat.not_le_of_lt hlt)

theorem trans (h : Spare s cs a b) (h' : Spare s cs b c) : Spare s cs a c := fun front x back hs hle hlt =>
  (Nat.lt_or_ge (utf8Size front) b).elim (h front x back hs hle) fun hge => h' front x back hs hge hlt

theorem of_comment {comment : Comment} (h : comment ∈ cs) : Spare s cs comment.lo comment.hi :=
  fun _ _ _ _ hle hlt => Or.inr ⟨comment, h, hle, hlt⟩

theorem of_blank {t : List Char} (h : s.slice a b = .ok t) (hblank : Source.isBlank t = true) : Spare s cs a b := by
  intro front c back hs hle hlt
  obtain ⟨upTo, rest, heq, rfl, rfl⟩ := Source.slice_eq_ok_iff.mp h
  have hsame : upTo ++ (t ++ rest) = front ++ (c :: back) := by rw [← List.append_assoc, ← heq, hs]
  obtain ⟨skipped, rfl⟩ := Text.prefix_of_utf8Size_le hsame hle
  rw [Text.utf8Size_append] at hlt
  rw [List.append_assoc] at hsame
  -- the character comes in the text, not behind it
  rcases List.append_eq_append_iff.mp (List.append_cancel_left hsame) with ⟨between, rfl, -⟩ | ⟨tail, rfl, htail⟩
  · rw [Text.utf8Size_append] at hlt
    omega
  · rcases tail with _ | ⟨x, tail⟩
    · simp at hlt
    · obtain ⟨rfl, -⟩ := List.cons.inj htail
      exact Or.inl (List.all_eq_true.mp hblank c (by simp))

end Spare

theorem overComments_spare {a : Nat} {all : List Comment} : ∀ {cs : List Comment} {start : Nat},
    overComments s cs start = .ok a → cs ⊆ all → Spare s all a start
  | [], start, h, _ => by
    cases h
    exact .refl s all _
  | c :: cs, start, h, hsub => by
    obtain ⟨hc, hcs⟩ := List.cons_subset.mp hsub
    rw [overComments] at h
    split at h
    · exact overComments_spare h hcs
    · obtain ⟨gap, hgap, h⟩ := bind_eq_ok h
      split at h
      · cases h
        exact .refl s all _
      · rename_i hattached
        obtain ⟨line, -, h⟩ := bind_eq_ok h
        obtain ⟨before, hbefore, h⟩ := bind_eq_ok h
        split at h
        · cases h
          exact .refl s all _
        · rename_i halone
          have hblank : Source.isBlank gap = true := by
            by_contra hnot
            exact hattached (by simp [hnot])
          have halone : Source.isBlank before = true := by simpa using halone
          exact (overComments_spare h hcs).trans
            ((Spare.of_blank hbefore halone).trans ((Spare.of_comment hc).trans (.of_blank hgap hblank)))

theorem removalStart_spare {lo a : Nat} (hp : p.CommentsExact s) (h : removalStart s p lo = .ok a) :
    a ≤ lo ∧ Spare s p.comments a lo := by
  obtain ⟨line, hline, h⟩ := bind_eq_ok h
  obtain ⟨before, hbefore, h⟩ := bind_eq_ok h
  split at h
  · rename_i hblank
    have hsub : (p.leadingComments lo).reverse ⊆ p.comments := fun c hc =>
      List.mem_of_mem_filter (List.mem_reverse.mp hc)
    have hle := (overComments_spec h).2 fun c hc => hp.lo_le_hi (hsub hc)
    exact ⟨Nat.le_trans hle (Source.lineStart_spec hline).le,
      (overComments_spare h hsub).trans (.of_blank hbefore hblank)⟩
  · cases h
    exact ⟨Nat.le_refl _, .refl s _ _⟩

theorem blankLineAt_spec {o : Nat} (h : blankLineAt s o = .ok true) :
    ∃ stop t, s.lineEnd o = .ok stop ∧ s.slice o stop = .ok t ∧ Source.isBlank t = true := by
  unfold blankLineAt at h
  split at h
  · cases h
  · obtain ⟨stop, hstop, h⟩ := bind_eq_ok h
    obtain ⟨t, ht, h⟩ := bind_eq_ok h
    exact ⟨stop, t, hstop, ht, Except.ok.inj h⟩

theorem removal_stop {start stop : Nat} (h : removal s p f = .ok (start, stop)) :
    ∃ semicolon, s.afterSemicolon f.hi = .ok semicolon ∧ semicolon ≤ stop ∧ Spare s [] semicolon stop := by
  obtain ⟨-, semicolon, eol, tail, hsemicolon, heol, htail, hstop⟩ := removal_cases h
  have hline := (Source.lineEnd_spec heol).le
  refine ⟨semicolon, hsemicolon, ?_⟩
  rcases hstop with rfl | ⟨hblank, rfl | ⟨hfollowed, hnext⟩⟩
  · exact ⟨Nat.le_refl _, .refl s _ _⟩
  · exact ⟨hline, .of_blank htail hblank⟩
  · obtain ⟨_, t, hnext', ht, hempty⟩ := blankLineAt_spec hfollowed
    cases hnext.symm.trans hnext'
    exact ⟨Nat.le_trans hline (Source.lineEnd_spec hnext).le,
      (Spare.of_blank htail hblank).trans (.of_blank ht hempty)⟩

theorem afterSemicolon_of_semicolon {front back : List Char} {b : Nat} (hs : s = front ++ ';' :: back)
    (h : s.afterSemicolon (utf8Size front) = .ok b) : b = utf8Size front + 1 := by
  rw [Source.afterSemicolon, Source.cut_eq_ok_iff.mpr ⟨hs, rfl⟩] at h
  cases h
  rfl

/-! ## The deletion -/

/-- A deletion removes the text between two offsets: a whole declaration, the first one on the line, with its decorators
and a semicolon behind it. Every other character that goes is white space or part of a comment. -/
theorem deleteSymbol_spares (hp : p.SpansNest) (hcomments : p.CommentsExact s) {position : Position}
    {es : List TextEdit} (h : deleteSymbol s (.ok p) position = .ok es) :
    ∃ n ∈ p.module.all, ∃ f e start stop, declarationOf? n = some f ∧ f.described.several = false ∧
      (∃ before after, p.module.all.filterMap declarationOf? = before ++ f :: after ∧
        f.startsOn s position.line = .ok true ∧ ∀ g ∈ before, g.startsOn s position.line = .ok false) ∧
      es = [e] ∧ s.Replaces e start stop [] ∧
      (∀ m ∈ n.all, m.isAbsent = true ∨ start ≤ m.lo ∧ m.hi ≤ stop) ∧
      (∀ front back, s = front ++ ';' :: back → utf8Size front = n.hi → n.hi < stop) ∧
      ∀ front c back, s = front ++ c :: back → start ≤ utf8Size front → utf8Size front < stop →
        n.Spans (utf8Size front) ∨ Text.isBlank c = true ∨ (c = ';' ∧ utf8Size front = n.hi) ∨
          ∃ comment ∈ p.comments, comment.lo ≤ utf8Size front ∧ utf8Size front < comment.hi := by
  obtain ⟨f, start, stop, e, hfound, hseveral, hremoval, he, rfl⟩ := deleteSymbol_eq_ok h
  obtain ⟨before, after, hsplit, hstarts, hbefore⟩ := firstOn_split hfound
  obtain ⟨n, hn, hdeclares⟩ := declarationAt?_spec hfound
  obtain ⟨-, hhi, -⟩ := declarationOf?_spec hdeclares
  obtain ⟨hle, habove⟩ := removalStart_spare hcomments (removal_spec hremoval).1
  obtain ⟨semicolon, hsemicolon, hstop, hbehind⟩ := removal_stop hremoval
  rw [hhi] at hsemicolon
  have hend : n.hi ≤ semicolon := by
    rcases Source.afterSemicolon_spec hsemicolon with rfl | ⟨-, -, -, -, rfl⟩ <;> omega
  refine ⟨n, hn, f, _, start, stop, hdeclares, hseveral, ⟨before, after, hsplit, hstarts, hbefore⟩, rfl, ?_,
    fun m hm => ?_, fun front back hs ho => ?_, fun front c back hs hlo hlt => ?_⟩
  · rw [Source.replaces_describedAs, Source.replaces_withType]
    exact Source.replaces_of_replacing he
  · refine (within_declaration hp hn hdeclares hm).imp_right fun ⟨hmlo, hmhi⟩ => ⟨Nat.le_trans hle hmlo, ?_⟩
    exact Nat.le_trans (hhi ▸ hmhi) (Nat.le_trans hend hstop)
  · rw [← ho] at hsemicolon ⊢
    have hnext := afterSemicolon_of_semicolon hs hsemicolon
    omega
  · rcases Nat.lt_or_ge (utf8Size front) f.start with hfirst | hfirst
    · exact Or.inr ((habove front c back hs hlo hfirst).imp_right Or.inr)
    · rcases Nat.lt_or_ge (utf8Size front) n.hi with hin | hin
      · exact Or.inl (spans_of_start_le hdeclares hfirst hin)
      · rcases Nat.lt_or_ge (utf8Size front) semicolon with hsemi | hsemi
        · rcases Source.afterSemicolon_spec hsemicolon with rfl | ⟨front', back', hs', ho, rfl⟩
          · omega
          · obtain ⟨rfl, htail⟩ := Text.append_inj_of_utf8Size (hs.symm.trans hs') (by omega)
            exact Or.inr (Or.inr (Or.inl ⟨(List.cons.inj htail).1, ho⟩))
        · exact Or.inr ((hbehind front c back hs hsemi hlt).imp_right fun ⟨_, hnone, _⟩ => by cases hnone)

/-- An exported class with a comment, a decorator and a semicolon, between white lines. -/
def decoratedText : Source := "f();\n\n// A\n@d\nexport class A \x7b\x7d;\n\ng();\n".toList

/-- The tree of the class and its surroundings. -/
def decorated : Parsed where
  module := .mk .plain .moduleRoot 0 39
    [.mk .stmt .exprStmt 0 4 [.mk .expr .call 0 3 [.mk .expr (.ident "f") 0 1 []]],
      .mk .item .exportDecl 14 31
        [.mk .plain (.classDecl "A") 21 31
          [.mk .plain (.ident "A") 27 28 [],
            .mk .plain .classBody 21 31
              [.mk .plain .decorator 11 13 [.mk .expr (.ident "d") 12 13 []], .absent, .absent, .absent]]],
      .mk .stmt .empty 31 32 [],
      .mk .stmt .exprStmt 34 38 [.mk .expr .call 34 37 [.mk .expr (.ident "g") 34 35 []]]]
  comments := [⟨11, 6, 10⟩]

/-- The class goes with its comment, its decorator and its semicolon, and with one of the white lines. -/
theorem deleteSymbol_spares_decorated : decorated.SpansNest ∧ decorated.CommentsExact decoratedText ∧
    ∃ es, deleteSymbol decoratedText (.ok decorated) ⟨4, 0⟩ = .ok es ∧
      es.map TextEdit.oldText = ["// A\n@d\nexport class A \x7b\x7d;\n\n"] ∧
      ∃ n ∈ decorated.module.all, ∃ e start stop, es = [e] ∧ decoratedText.Replaces e start stop [] ∧
        ∀ m ∈ n.all, m.isAbsent = true ∨ start ≤ m.lo ∧ m.hi ≤ stop := by
  have hnest : decorated.SpansNest := ⟨by decide +kernel, by decide +kernel, by decide +kernel⟩
  have hcomments : decorated.CommentsExact decoratedText := by
    intro c hc
    obtain rfl := List.mem_singleton.mp hc
    exact ⟨"// A".toList, eq_ok_of_toOption (by decide +kernel), Or.inl ⟨" A".toList, by decide, by decide⟩⟩
  have hedits : (deleteSymbol decoratedText (.ok decorated) ⟨4, 0⟩).toOption.map (·.map TextEdit.oldText) =
      some ["// A\n@d\nexport class A \x7b\x7d;\n\n"] := by
    decide +kernel
  cases hresult : deleteSymbol decoratedText (.ok decorated) ⟨4, 0⟩ with
  | error fault =>
    rw [hresult] at hedits
    cases hedits
  | ok es =>
    rw [hresult] at hedits
    obtain ⟨n, hn, f, e, start, stop, -, -, -, hes, hreplaces, hwhole, -, -⟩ :=
      deleteSymbol_spares hnest hcomments hresult
    exact ⟨hnest, hcomments, es, rfl, Option.some.inj hedits, n, hn, e, start, stop, hes, hreplaces, hwhole⟩

end Refactor.Script
