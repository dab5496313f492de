import Mathlib.Data.List.Pairwise
import Refactor.Script.Scope
import Refactor.Proofs.Script.Places

/-!
# Nodes of a tree and their ranges

A walk over a tree visits a node and then everything below its children. What holds of the children of every node carries
over to all nodes: two words, names that are read and plain literals, stand apart wherever in the tree they are.

* `Node.mem_all_iff`, `Node.inductOn` — everything below a node, and induction over a tree
* `Node.mem_boundNames` — a bound name is an identifier of its pattern
* `Parsed.Binds`, `Parsed.Reads`, `Parsed.Writes` — what a tree does with a name
* `Parsed.Placed` — a tree whose ranges lie between characters of a source
* `Parsed.ReadOff` — a tree whose ranges are those of tokens of a source
* `Parsed.WellNested` — one whose ranges are nested as its nodes are
* `Parsed.WellNested.words_apart` — two words are one or share no character
* `sample` — a small tree
-/

namespace Refactor.Script

namespace Node

/-! ## Everything below a node -/

theorem all_eq (n : Node) : n.all = n :: allOf n.kids := by
  cases n
  rw [all]
  rfl

theorem mem_allOf_iff {x : Node} {ks : List Node} : x ∈ allOf ks ↔ ∃ k ∈ ks, x ∈ k.all := by
  induction ks with
  | nil => simp [allOf]
  | cons k ks ih => rw [allOf, List.mem_append, ih, List.exists_mem_cons_iff]

theorem mem_all_iff {x n : Node} : x ∈ n.all ↔ x = n ∨ ∃ k ∈ n.kids, x ∈ k.all := by
  rw [all_eq, List.mem_cons, mem_allOf_iff]

theorem mem_all_self (n : Node) : n ∈ n.all := mem_all_iff.mpr (Or.inl rfl)

theorem mem_all_of_mem_kids {k n : Node} (h : k ∈ n.kids) : k ∈ n.all := mem_all_iff.mpr (Or.inr ⟨k, h, mem_all_self k⟩)

mutual

theorem inductOn {P : Node → Prop} (h : ∀ n, (∀ k ∈ n.kids, P k) → P n) : ∀ n, P n
  | .mk role form lo hi kids => h (.mk role form lo hi kids) (inductOnAll h kids)

theorem inductOnAll {P : Node → Prop} (h : ∀ n, (∀ k ∈ n.kids, P k) → P n) : ∀ ks : List Node, ∀ k ∈ ks, P k
  | [] => by simp
  | k :: ks => List.forall_mem_cons.mpr ⟨inductOn h k, inductOnAll h ks⟩

end

theorem mem_all_trans {x y z : Node} (hxy : x ∈ y.all) (hyz : y ∈ z.all) : x ∈ z.all := by
  induction z using inductOn with
  | h z ih =>
    rcases mem_all_iff.mp hyz with rfl | ⟨k, hk, hyk⟩
    · exact hxy
    · exact mem_all_iff.mpr (Or.inr ⟨k, hk, ih k hk hyk⟩)

theorem kid_mem_or (n : Node) (i : Nat) : n.kid i ∈ n.kids ∨ n.kid i = .absent := by
  unfold kid
  rw [List.getD_eq_getElem?_getD]
  cases hi : n.kids[i]? with
  | none => exact Or.inr rfl
  | some k => exact Or.inl (List.mem_of_getElem? hi)

theorem kid_mem (n : Node) {i : Nat} (h : (n.kid i).form ≠ .absent) : n.kid i ∈ n.kids := by
  rcases kid_mem_or n i with hmem | habsent
  · exact hmem
  · rw [habsent] at h
    exact absurd rfl h

/-! ## Names of patterns -/

theorem mem_boundNamesOf_iff {x : String × Nat} {ks : List Node} :
    x ∈ boundNamesOf ks ↔ ∃ k ∈ ks, x ∈ k.boundNames := by
  induction ks with
  | nil => simp [boundNamesOf]
  | cons k ks ih => rw [boundNamesOf, List.mem_append, ih, List.exists_mem_cons_iff]

theorem boundNames_cases {x : String} {o : Nat} {n : Node} (h : (x, o) ∈ n.boundNames) :
    (n.form = .ident x ∧ n.lo = o) ∨ ∃ k ∈ n.kids, (x, o) ∈ k.boundNames := by
  fun_cases boundNames n with
  | case1 role name lo hi kids =>
    rw [boundNames, List.mem_singleton, Prod.mk.injEq] at h
    obtain ⟨rfl, rfl⟩ := h
    exact Or.inl ⟨rfl, rfl⟩
  | case2 role lo hi kids => exact Or.inr (mem_boundNamesOf_iff.mp h)
  | case3 role lo hi kids => exact Or.inr (mem_boundNamesOf_iff.mp h)
  | case4 role lo hi kids => exact Or.inr (mem_boundNamesOf_iff.mp h)
  | case5 role lo hi p rest => exact Or.inr ⟨p, List.mem_cons_self, h⟩
  | case6 role lo hi key p rest => exact Or.inr ⟨p, List.mem_cons_of_mem key List.mem_cons_self, h⟩
  | case7 role lo hi p rest => exact Or.inr ⟨p, List.mem_cons_self, h⟩
  | case8 =>
    rw [boundNames] at h
    · cases h
    all_goals assumption

theorem mem_boundNames {x : String} {o : Nat} {n : Node} (h : (x, o) ∈ n.boundNames) :
    ∃ m ∈ n.all, m.form = .ident x ∧ m.lo = o := by
  induction n using inductOn with
  | h n ih =>
    rcases boundNames_cases h with hown | ⟨k, hk, hbelow⟩
    · exact ⟨n, mem_all_self n, hown⟩
    · obtain ⟨m, hm, hspec⟩ := ih k hk hbelow
      exact ⟨m, mem_all_iff.mpr (Or.inr ⟨k, hk, hm⟩), hspec⟩

/-! ## Ranges -/

def isWord (n : Node) : Bool := (Scope.readBy n).isSome || (n.isExpr && n.isPlainLiteral)

/-- Empty slots, and decorators, which may come before the node that has them. -/
def isLoose (n : Node) : Bool := n.role == .plain && ((n.isAbsent && n.kids.isEmpty) || n.form == .decorator)

/-- What stands beside the siblings of a node: the range of a function or a class spans its name too, so its parts stand
for it. -/
def standing (n : Node) : List Node := if n.form == .functionBody || n.form == .classBody then n.kids else [n]

def Apart (a b : Node) : Prop := ∀ x ∈ a.all, ∀ y ∈ b.all, x.hi ≤ y.lo ∨ y.hi ≤ x.lo

instance {a b : Node} : Decidable (Apart a b) := inferInstanceAs (Decidable (∀ x ∈ a.all, ∀ y ∈ b.all, _))

theorem Apart.symm {a b : Node} (h : Apart a b) : Apart b a := fun x hx y hy => (h y hy x hx).symm

/-- A word in a node is in what stands for the node. -/
theorem exists_standing_of_isWord {x n : Node} (hx : x ∈ n.all) (hword : x.isWord = true) :
    ∃ a ∈ n.standing, x ∈ a.all := by
  unfold standing
  split
  · rename_i hform
    rcases mem_all_iff.mp hx with rfl | hbelow
    · -- functions and classes are no words
      rcases Bool.or_eq_true _ _ ▸ hform with hform | hform <;>
        simp [isWord, Scope.readBy, isPlainLiteral, eq_of_beq hform] at hword
    · exact hbelow
  · exact ⟨n, List.mem_singleton_self n, hx⟩

end Node

namespace Parsed

/-! ## Names -/

def Binds (p : Parsed) (x : String) (a b : Nat) : Prop :=
  ∃ n ∈ p.module.all, ∃ o, (x, o) ∈ Scope.boundBy n ∧ a ≤ o ∧ o < b

/-- A name is read at an offset from `a` up to `b`. -/
def Reads (p : Parsed) (x : String) (a b : Nat) : Prop :=
  ∃ n ∈ p.module.all, ∃ u, Scope.readBy n = some u ∧ u.name = x ∧ a ≤ u.lo ∧ u.lo < b

def Writes (p : Parsed) (x : String) (a b : Nat) : Prop :=
  ∃ n ∈ p.module.all, ∃ o, (x, o) ∈ Scope.writtenBy n ∧ a ≤ o ∧ o < b

section Names

variable {p : Parsed} {x : String} {a b : Nat}

theorem mem_bindings {c : Binding} :
    c ∈ (Scope.ofModule p).bindings ↔ ∃ n ∈ p.module.all, (c.name, c.offset) ∈ Scope.boundBy n := by
  simp only [Scope.ofModule, List.mem_map, List.mem_flatMap, Prod.exists]
  constructor
  · rintro ⟨x, o, h, rfl⟩
    exact h
  · exact fun h => ⟨c.name, c.offset, h, rfl⟩

theorem mem_readsBetween {u : NameUse} : u ∈ (Scope.ofModule p).readsBetween x a b ↔
    (∃ n ∈ p.module.all, Scope.readBy n = some u) ∧ u.name = x ∧ a ≤ u.lo ∧ u.lo < b := by
  simp [Scope.readsBetween, Scope.ofModule, and_assoc]

theorem readsBetween_isEmpty : ((Scope.ofModule p).readsBetween x a b).isEmpty = false ↔ p.Reads x a b := by
  rw [List.isEmpty_eq_false_iff_exists_mem]
  constructor
  · rintro ⟨u, hu⟩
    obtain ⟨⟨n, hn, hread⟩, hspec⟩ := mem_readsBetween.mp hu
    exact ⟨n, hn, u, hread, hspec⟩
  · rintro ⟨n, hn, u, hread, hspec⟩
    exact ⟨u, mem_readsBetween.mpr ⟨⟨n, hn, hread⟩, hspec⟩⟩

theorem isWrittenBetween_iff : (Scope.ofModule p).isWrittenBetween x a b = true ↔ p.Writes x a b := by
  simp only [Scope.isWrittenBetween, Scope.ofModule, List.any_eq_true, List.mem_flatMap, Prod.exists, Bool.and_eq_true,
    beq_iff_eq, decide_eq_true_eq]
  constructor
  · rintro ⟨y, o, ⟨n, hn, hwrite⟩, ⟨rfl, ha⟩, hb⟩
    exact ⟨n, hn, o, hwrite, ha, hb⟩
  · rintro ⟨n, hn, o, hwrite, ha, hb⟩
    exact ⟨x, o, ⟨n, hn, hwrite⟩, ⟨rfl, ha⟩, hb⟩

end Names

theorem readBy_spec {n : Node} {u : NameUse} (h : Scope.readBy n = some u) :
    u.lo = n.lo ∧ u.hi = n.hi ∧ n.isWord = true := by
  have hword : n.isWord = true := by simp [Node.isWord, h]
  unfold Scope.readBy at h
  split at h
  · split at h
    · cases h
      exact ⟨rfl, rfl, hword⟩
    · cases h
  · cases h
    exact ⟨rfl, rfl, hword⟩
  · cases h

/-! ## Nested ranges -/

/-- A tree whose ranges, and those of its comments, lie between characters of a source. -/
structure Placed (p : Parsed) (s : Source) : Prop where
  nodes : ∀ n ∈ p.module.all, s.IsCut n.lo ∧ s.IsCut n.hi ∧ n.lo ≤ n.hi
  comments : ∀ c ∈ p.comments, s.IsCut c.lo ∧ s.IsCut c.hi ∧ c.lo ≤ c.hi

/-- A tree read off a source: a module, whose ranges are ranges of tokens. A source with a byte order mark is read without
it, so that its tree is read off the text behind the mark. -/
structure ReadOff (p : Parsed) (s : Source) : Prop where
  root : p.module.form = .moduleRoot
  /-- names and literals are single tokens -/
  words : ∀ n ∈ p.module.all, n.isWord = true → n.kids = []
  /-- a range runs from the first character of a token to the last character of a token -/
  visible : ∀ n ∈ Node.allOf p.module.kids, n.isAbsent = true ∨ s.Visible n.lo n.hi

/-- A tree of a source whose ranges are nested as its nodes are. -/
structure WellNested (p : Parsed) (s : Source) : Prop extends p.ReadOff s where
  /-- no child starts before its parent -/
  inside : ∀ n ∈ p.module.all, ∀ k ∈ n.kids, k.isLoose = true ∨ n.lo ≤ k.lo
  /-- siblings, with all that is in them, share no character -/
  beside : ∀ n ∈ p.module.all, (n.kids.flatMap Node.standing).Pairwise Node.Apart

variable {p : Parsed} {s : Source}

theorem ReadOff.visible_of_mem (h : p.ReadOff s) {n : Node} (hn : n ∈ p.module.all) (hsome : n.form ≠ .absent)
    (hinner : n.form ≠ .moduleRoot) : s.Visible n.lo n.hi := by
  rcases Node.mem_all_iff.mp hn with rfl | hbelow
  · exact absurd h.root hinner
  · exact (h.visible n (Node.mem_allOf_iff.mpr hbelow)).resolve_left (by simpa [Node.isAbsent] using hsome)

theorem words_apart_of_beside {n : Node} (hbeside : ∀ m ∈ n.all, (m.kids.flatMap Node.standing).Pairwise Node.Apart)
    (hwords : ∀ m ∈ n.all, m.isWord = true → m.kids = []) {x y : Node} (hx : x ∈ n.all) (hy : y ∈ n.all)
    (hxword : x.isWord = true) (hyword : y.isWord = true) : x = y ∨ x.hi ≤ y.lo ∨ y.hi ≤ x.lo := by
  induction n using Node.inductOn with
  | h n ih =>
    have hbelow : ∀ k ∈ n.kids, ∀ m ∈ k.all, m ∈ n.all := fun k hk m hm => Node.mem_all_iff.mpr (Or.inr ⟨k, hk, hm⟩)
    rcases Node.mem_all_iff.mp hx with rfl | ⟨k, hk, hxk⟩
    · -- a word has nothing below it
      rw [Node.all_eq, hwords x hx hxword, Node.allOf, List.mem_singleton] at hy
      exact Or.inl hy.symm
    rcases Node.mem_all_iff.mp hy with rfl | ⟨l, hl, hyl⟩
    · rw [hwords y hy hyword] at hk
      cases hk
    have hsides := List.pairwise_flatMap.mp (hbeside n (Node.mem_all_self n))
    by_cases hsame : k = l
    · subst hsame
      exact ih k hk (fun m hm => hbeside m (hbelow k hk m hm)) (fun m hm => hwords m (hbelow k hk m hm)) hxk hyl
    · obtain ⟨a, ha, hxa⟩ := Node.exists_standing_of_isWord hxk hxword
      obtain ⟨b, hb, hyb⟩ := Node.exists_standing_of_isWord hyl hyword
      have hsymm : Std.Symm fun k l : Node => ∀ a ∈ k.standing, ∀ b ∈ l.standing, Node.Apart a b :=
        ⟨fun _ _ h b hb a ha => (h a ha b hb).symm⟩
      exact Or.inr (hsides.2.forall hk hl hsame a ha b hb x hxa y hyb)

/-- Two words are one, or they share no character. -/
theorem WellNested.words_apart (h : p.WellNested s) {x y : Node} (hx : x ∈ p.module.all) (hy : y ∈ p.module.all)
    (hxword : x.isWord = true) (hyword : y.isWord = true) : x = y ∨ x.hi ≤ y.lo ∨ y.hi ≤ x.lo :=
  words_apart_of_beside h.beside h.words hx hy hxword hyword

end Parsed

/-! ## A small tree -/

/-- A function with a variable that is read once. -/
def sampleText : Source := "function f(a) \x7b\n  const b = a;\n  use(b);\n\x7d\n".toList

/-- The tree of the function. -/
def sample : Parsed where
  module := .mk .plain .moduleRoot 0 43
    [.mk .stmt (.functionDecl "f") 0 42
      [.mk .plain (.ident "f") 9 10 [],
        .mk .plain .functionBody 0 42
          [.mk .plain .param 11 12 [.mk .pat (.ident "a") 11 12 []],
            .mk .plain .block 14 42
              [.mk .stmt (.varDecl .fixed) 18 30
                [.mk .plain .declarator 24 29 [.mk .pat (.ident "b") 24 25 [], .mk .expr (.ident "a") 28 29 []]],
                .mk .stmt .exprStmt 33 40
                  [.mk .expr .call 33 39 [.mk .expr (.ident "use") 33 36 [], .mk .expr (.ident "b") 37 38 []]]],
            .absent, .absent]]]
  comments := []

theorem sample_wellNested : sample.WellNested sampleText where
  root := rfl
  inside := by decide +kernel
  beside := by decide +kernel
  words := by decide +kernel
  visible := by decide +kernel

end Refactor.Script
