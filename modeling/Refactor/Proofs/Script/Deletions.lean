import Refactor.Script.Delete
import Refactor.Proofs.Script.Trees

/-!
# Deleted declarations

What a deletion removes starts with the declaration, with a decorator of it, or with a line, and ends with the declaration
or with a line.

* `declarationOf?_spec` — where a declaration and its parts stand
* `removalStart_spec`, `removal_cases`, `removal_spec` — where a removal starts and ends
* `declaration_ends`, `removal_ends` — what the ends of nodes and lines hand on to them
* `deleteSymbol_eq_ok` — the edit
-/

namespace Refactor.Script

/-! ## Declarations -/

namespace Node

theorem kid_lo_cases (n : Node) (i : Nat) : (n.kid i).lo = 0 ∨ ∃ m ∈ n.all, m.lo = (n.kid i).lo := by
  rcases kid_mem_or n i with hmem | habsent
  · exact Or.inr ⟨_, mem_all_of_mem_kids hmem, rfl⟩
  · exact Or.inl (by rw [habsent]; rfl)

/-- What is below a child is below the node, unless the child is missing. -/
theorem mem_all_of_kid {n x : Node} {i : Nat} (hx : x ∈ (n.kid i).all) (hsome : x.form ≠ .absent) : x ∈ n.all := by
  rcases kid_mem_or n i with hmem | habsent
  · exact mem_all_iff.mpr (Or.inr ⟨_, hmem, hx⟩)
  · rw [habsent, all_eq] at hx
    obtain rfl : x = absent := List.mem_singleton.mp hx
    exact absurd rfl hsome

end Node

/-- What a description is of: something other than a module, whose name and decorator are below it. -/
structure Described.IsOf (d : Described) (n : Node) : Prop where
  something : n.form ≠ .absent
  inner : n.form ≠ .moduleRoot
  name : d.nameLo = 0 ∨ ∃ m ∈ n.all, m.lo = d.nameLo
  decorated : ∀ o, d.decorated = some o → ∃ k ∈ n.all, k.form = .decorator ∧ k.lo = o

theorem describe?_spec {n : Node} {d : Described} (h : describe? n = some d) : d.IsOf n := by
  unfold describe? at h
  split at h
  · rename_i name hform
    cases h
    exact ⟨by simp [hform], by simp [hform], n.kid_lo_cases 0, by simp⟩
  · rename_i name hform
    dsimp only at h
    cases h
    refine ⟨by simp [hform], by simp [hform], n.kid_lo_cases 0, fun o ho => ?_⟩
    dsimp only at ho
    split at ho
    · rename_i hdecorator
      cases ho
      have hdecorator : ((n.kid 1).kid 0).form = .decorator := eq_of_beq hdecorator
      have hsome : ((n.kid 1).kid 0).form ≠ .absent := by simp [hdecorator]
      exact ⟨_, Node.mem_all_of_kid (Node.mem_all_of_mem_kids (Node.kid_mem _ hsome)) hsome, hdecorator, rfl⟩
    · cases ho
  · rename_i kind hform
    split at h
    · rename_i name lo rest hnames
      cases h
      refine ⟨by simp [hform], by simp [hform], Or.inr ?_, by simp⟩
      obtain ⟨m, hm, hident, hlo⟩ := Node.mem_boundNames (hnames ▸ List.mem_cons_self : (name, lo) ∈ _)
      have hsome : m.form ≠ .absent := by simp [hident]
      exact ⟨m, Node.mem_all_of_kid (i := 0) (Node.mem_all_of_kid (i := 0) hm hsome) hsome, hlo⟩
    · cases h
  all_goals
    rename_i hform
    first
    | (cases h; exact ⟨by simp [hform], by simp [hform], n.kid_lo_cases 0, by simp⟩)
    | cases h

theorem declarationOf?_spec {n : Node} {f : FoundDeclaration} (h : declarationOf? n = some f) :
    f.lo = n.lo ∧ f.hi = n.hi ∧ f.described.IsOf n := by
  obtain ⟨d, hd, rfl⟩ := Option.map_eq_some_iff.mp h
  refine ⟨rfl, rfl, ?_⟩
  obtain ⟨inner, hinner, hdescribed⟩ := Option.bind_eq_some_iff.mp hd
  have hof := describe?_spec hdescribed
  split at hinner
  · rename_i hexport
    cases hinner
    have hexport : n.form = .exportDecl := eq_of_beq hexport
    have hmem : n.kid 0 ∈ n.all := Node.mem_all_of_mem_kids (Node.kid_mem n hof.something)
    refine ⟨by simp [hexport], by simp [hexport], ?_, fun o ho => ?_⟩
    · exact hof.name.imp_right fun ⟨m, hm, hlo⟩ => ⟨m, Node.mem_all_trans hm hmem, hlo⟩
    · obtain ⟨k, hk, hspec⟩ := hof.decorated o ho
      exact ⟨k, Node.mem_all_trans hk hmem, hspec⟩
  · split at hinner
    · cases hinner
      exact hof
    · cases hinner

variable {s : Source} {p : Parsed}

theorem firstOn_spec {line : Nat} {f : FoundDeclaration} : ∀ {fs : List FoundDeclaration},
    firstOn s line fs = .ok (some f) → f ∈ fs
  | [], h => by cases h
  | g :: fs, h => by
    rw [firstOn] at h
    obtain ⟨starts, -, h⟩ := bind_eq_ok h
    split at h
    · cases h
      exact List.mem_cons_self
    · exact List.mem_cons_of_mem g (firstOn_spec h)

theorem declarationAt?_spec {line : Nat} {f : FoundDeclaration} (h : declarationAt? s p line = .ok (some f)) :
    ∃ n ∈ p.module.all, declarationOf? n = some f :=
  List.mem_filterMap.mp (firstOn_spec h)

theorem FoundDeclaration.start_cases (f : FoundDeclaration) : f.start = f.lo ∨ f.described.decorated = some f.start := by
  unfold FoundDeclaration.start
  cases hdecorated : f.described.decorated with
  | none => exact Or.inl (Nat.min_self _)
  | some o =>
    rw [Option.getD_some]
    rcases Nat.le_total o f.lo with hle | hle
    · exact Or.inr (by rw [Nat.min_eq_left hle])
    · exact Or.inl (Nat.min_eq_right hle)

/-- What holds of the ends of nodes holds of those of a declaration, its decorators included. -/
theorem declaration_ends {P : Nat → Prop}
    (hnodes : ∀ n ∈ p.module.all, n.form ≠ .absent → n.form ≠ .moduleRoot → P n.lo ∧ P n.hi) {line : Nat}
    {f : FoundDeclaration} (h : declarationAt? s p line = .ok (some f)) : P f.start ∧ P f.hi := by
  obtain ⟨n, hn, hfound⟩ := declarationAt?_spec h
  obtain ⟨hlo, hhi, hof⟩ := declarationOf?_spec hfound
  obtain ⟨hstart, hstop⟩ := hnodes n hn hof.something hof.inner
  refine ⟨?_, hhi ▸ hstop⟩
  rcases f.start_cases with hown | hdecorated
  · rw [hown, hlo]
    exact hstart
  · obtain ⟨k, hk, hdecorator, hdecorates⟩ := hof.decorated _ hdecorated
    rw [← hdecorates]
    exact (hnodes k (Node.mem_all_trans hk hn) (by simp [hdecorator]) (by simp [hdecorator])).1

/-! ## Removals -/

/-- The walk over comments ends where it started or at the start of a line, and never goes down. -/
theorem overComments_spec {a : Nat} : ∀ {cs : List Comment} {start : Nat}, overComments s cs start = .ok a →
    (a = start ∨ ∃ o, s.LineStart o a) ∧ ((∀ c ∈ cs, c.lo ≤ c.hi) → a ≤ start)
  | [], start, h => by
    cases h
    exact ⟨Or.inl rfl, fun _ => Nat.le_refl _⟩
  | c :: cs, start, h => by
    rw [overComments] at h
    split at h
    · obtain ⟨hplace, hle⟩ := overComments_spec h
      exact ⟨hplace, fun hcs => hle (List.forall_mem_cons.mp hcs).2⟩
    · rename_i hbefore
      obtain ⟨gap, -, h⟩ := bind_eq_ok h
      split at h
      · cases h
        exact ⟨Or.inl rfl, fun _ => Nat.le_refl _⟩
      · obtain ⟨line, hline, h⟩ := bind_eq_ok h
        obtain ⟨before, -, h⟩ := bind_eq_ok h
        have hline := Source.lineStart_spec hline
        split at h
        · cases h
          exact ⟨Or.inl rfl, fun _ => Nat.le_refl _⟩
        · obtain ⟨hplace, hle⟩ := overComments_spec h
          refine ⟨Or.inr ?_, fun hcs => ?_⟩
          · rcases hplace with rfl | hstart
            · exact ⟨c.lo, hline⟩
            · exact hstart
          · obtain ⟨hc, hcs⟩ := List.forall_mem_cons.mp hcs
            have hrest := hle hcs
            have hup := hline.le
            omega

/-- A removal starts with its declaration when something stands before that on the line, and with a line otherwise. -/
theorem removalStart_spec {lo a : Nat} (h : removalStart s p lo = .ok a) :
    ∃ line before, s.lineStart lo = .ok line ∧ s.slice line lo = .ok before ∧
      (Source.isBlank before = false ∧ a = lo ∨ Source.isBlank before = true ∧ ∃ o, s.LineStart o a) := by
  obtain ⟨line, hline, h⟩ := bind_eq_ok h
  obtain ⟨before, hbefore, h⟩ := bind_eq_ok h
  refine ⟨line, before, hline, hbefore, ?_⟩
  split at h
  · rename_i hblank
    refine Or.inr ⟨hblank, ?_⟩
    rcases (overComments_spec h).1 with rfl | hstart
    · exact ⟨lo, Source.lineStart_spec hline⟩
    · exact hstart
  · rename_i hblank
    cases h
    exact Or.inl ⟨Bool.not_eq_true _ ▸ hblank, rfl⟩

theorem removalStart_le {lo a : Nat} (hp : p.Placed s) (h : removalStart s p lo = .ok a) : a ≤ lo := by
  obtain ⟨line, hline, h⟩ := bind_eq_ok h
  obtain ⟨before, -, h⟩ := bind_eq_ok h
  split at h
  · have hcomments : ∀ c ∈ (p.leadingComments lo).reverse, c.lo ≤ c.hi := fun c hc =>
      (hp.comments c (List.mem_filter.mp (List.mem_reverse.mp hc)).1).2.2
    exact ((overComments_spec h).2 hcomments).trans (Source.lineStart_spec hline).le
  · cases h
    exact Nat.le_refl _

/-- The steps of a removal: behind the semicolon it goes on to the end of a line when that is white space, and to the
end of the next one when that is, too. -/
theorem removal_cases {f : FoundDeclaration} {start stop : Nat} (h : removal s p f = .ok (start, stop)) :
    removalStart s p f.start = .ok start ∧ ∃ semicolon eol tail, s.afterSemicolon f.hi = .ok semicolon ∧
      s.lineEnd semicolon = .ok eol ∧ s.slice semicolon eol = .ok tail ∧
      (stop = semicolon ∨
        Source.isBlank tail = true ∧ (stop = eol ∨ blankLineAt s eol = .ok true ∧ s.lineEnd eol = .ok stop)) := by
  obtain ⟨start', hstart, h⟩ := bind_eq_ok h
  obtain ⟨preceded, -, h⟩ := bind_eq_ok h
  obtain ⟨semicolon, hsemicolon, h⟩ := bind_eq_ok h
  obtain ⟨eol, heol, h⟩ := bind_eq_ok h
  obtain ⟨tail, htail, h⟩ := bind_eq_ok h
  obtain ⟨followed, hfollowed, h⟩ := bind_eq_ok h
  split at h
  · cases h
    exact ⟨hstart, _, eol, tail, hsemicolon, heol, htail, Or.inl rfl⟩
  · rename_i hblank
    have hblank : Source.isBlank tail = true := by simpa using hblank
    split at h
    · rename_i hbetween
      obtain ⟨-, rfl⟩ := Bool.and_eq_true_iff.mp hbetween
      obtain ⟨stop', hstop, h⟩ := bind_eq_ok h
      cases h
      exact ⟨hstart, semicolon, eol, tail, hsemicolon, heol, htail, Or.inr ⟨hblank, Or.inr ⟨hfollowed, hstop⟩⟩⟩
    · cases h
      exact ⟨hstart, semicolon, _, tail, hsemicolon, heol, htail, Or.inr ⟨hblank, Or.inl rfl⟩⟩

/-- A removal ends with its declaration, behind the semicolon, or with a line. -/
theorem removal_spec {f : FoundDeclaration} {start stop : Nat} (h : removal s p f = .ok (start, stop)) :
    removalStart s p f.start = .ok start ∧
      ∃ semicolon, s.afterSemicolon f.hi = .ok semicolon ∧
        (stop = semicolon ∨ ∃ o, semicolon ≤ o ∧ s.LineEnd o stop) := by
  obtain ⟨hstart, semicolon, eol, tail, hsemicolon, heol, -, hstop⟩ := removal_cases h
  have hline := Source.lineEnd_spec heol
  refine ⟨hstart, semicolon, hsemicolon, ?_⟩
  rcases hstop with rfl | ⟨-, rfl | ⟨-, hnext⟩⟩
  · exact Or.inl rfl
  · exact Or.inr ⟨semicolon, Nat.le_refl _, hline⟩
  · exact Or.inr ⟨eol, hline.le, Source.lineEnd_spec hnext⟩

/-- What holds of the ends of a declaration, and of those of lines, holds of the ends of a removal. -/
theorem removal_ends {P : Nat → Prop} (hlineStart : ∀ {o a}, s.LineStart o a → P a) (hlineEnd : ∀ {o b}, s.LineEnd o b → P b)
    (hsemicolon : ∀ {o b}, s.afterSemicolon o = .ok b → P o → P b) {f : FoundDeclaration} {start stop : Nat}
    (hlo : P f.start) (hhi : P f.hi) (h : removal s p f = .ok (start, stop)) : P start ∧ P stop := by
  obtain ⟨hstart, semicolon, hbehind, hstop⟩ := removal_spec h
  constructor
  · obtain ⟨line, before, -, -, ⟨-, rfl⟩ | ⟨-, o, hline⟩⟩ := removalStart_spec hstart
    · exact hlo
    · exact hlineStart hline
  · rcases hstop with rfl | ⟨o, -, hline⟩
    · exact hsemicolon hbehind hhi
    · exact hlineEnd hline

theorem deleteSymbol_eq_ok {position : Position} {es : List TextEdit} (h : deleteSymbol s (.ok p) position = .ok es) :
    ∃ f start stop e, declarationAt? s p position.line = .ok (some f) ∧ f.described.several = false ∧
      removal s p f = .ok (start, stop) ∧ s.replacing start stop [] = .ok e ∧
      es = [(e.withType .delete).describedAs ("Delete " ++ f.described.kind ++ " '" ++ f.described.name ++ "'")] := by
  obtain ⟨p', hp, h⟩ := bind_eq_ok h
  cases hp
  obtain ⟨found, hfound, h⟩ := bind_eq_ok h
  split at h
  · rename_i f
    obtain ⟨hseveral, h⟩ := unless_eq_ok h
    obtain ⟨⟨start, stop⟩, hremoval, h⟩ := bind_eq_ok h
    obtain ⟨e, he, h⟩ := bind_eq_ok h
    cases h
    exact ⟨f, start, stop, e, hfound, Bool.not_eq_true _ ▸ hseveral, hremoval, he, rfl⟩
  · cases h

end Refactor.Script
