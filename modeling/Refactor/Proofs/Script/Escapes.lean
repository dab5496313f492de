import Refactor.Script.Flow
import Refactor.Proofs.Script.Statements

/-!
# Control flow that leaves a run of statements

A jump, and a word for what surrounds it, leaves a statement when nothing on the path down to it takes it in: a function
for `return` and `yield`, a loop, a switch or a label for a jump, and code that binds a `this` of its own for `this` and
`super`. The walk over a selection counts what is on the path. It misses what leaves from the decorators, the computed
names and the heritage of the functions and classes on the path, and it has no eye for `super` and for the names of
elements.

* `Flow.Step`, `Flow.Below` — steps down to a child, and the paths that they make
* `Flow.leaves` — what nothing on the path takes in
* `Flow.overlooked` — what the walk takes for something inside
* `Flow.blocked_ofForm_along`, `Flow.blocked_ofNode` — the walk at the end of a path, and over a whole statement
* `Flow.Selects` — the statements that the walk comes to
* `Flow.ofSelection_blocked_iff` — it refuses a run when something leaves it that it does not overlook
-/

namespace Refactor.Script

namespace Form

/-- Functions; a node of one of these forms holds its decorators and its name as well as its code. -/
def isFunction : Form → Bool
  | .functionBody | .constructorMember | .getter | .setter | .arrow => true
  | _ => false

/-- Functions and classes in which `this` can get a meaning of its own. -/
def hasReceiver : Form → Bool
  | .functionBody | .constructorMember | .getter | .setter | .classBody => true
  | _ => false

def isLoop : Form → Bool
  | .forStmt | .forIn | .forOf _ | .whileStmt | .doWhile => true
  | _ => false

def isField : Form → Bool
  | .classField | .privateField | .accessorField => true
  | _ => false

end Form

namespace Flow

/-! ## Paths -/

structure Step where
  parent : Node
  place : Nat

def Step.child (s : Step) : Node := s.parent.kid s.place

/-- A path from a node down to another one, its last step first. -/
inductive Below : Node → List Step → Node → Prop
  | here (n : Node) : Below n [] n
  | step {n k m : Node} {i : Nat} {path : List Step} :
    n.kids[i]? = some k → Below k path m → Below n (path ++ [⟨n, i⟩]) m

def nearest (path : List Step) : List Step := path.takeWhile (!·.parent.form.isFunction)

/-- A step into what a function does when it is called, given the step behind it: not its name, nor its decorators or
those of its parameters. -/
def Step.intoFunction (s : Step) (next : Option Step) : Bool :=
  match s.parent.form with
  | .arrow => true
  | .functionBody => s.child.form != .decorator && !next.any (·.child.form == .decorator)
  | .constructorMember | .getter | .setter => s.place != 0 && !next.any (·.child.form == .decorator)
  | _ => false

/-- A step into code that binds `this`: functions other than arrow functions, values of fields, and static blocks. -/
def Step.intoReceiver (s : Step) (next : Option Step) : Bool :=
  match s.parent.form with
  | .arrow => false
  | .classBody => s.child.form == .staticBlock || s.child.form.isField && next.any (·.place == 1)
  | _ => s.intoFunction next

/-- Whether a path goes into code of a sort; `next` is the step behind it. -/
def enters (into : Step → Option Step → Bool) (next : Option Step) : List Step → Bool
  | [] => false
  | s :: path => into s next || enters into (some s) path

def namesElement (path : List Step) : Bool :=
  ((path.map (·.parent.form)).dropWhile (· == .group)).head? == some .jsx

/-! ## What leaves -/

/-- A node that leaves the start of the path to it. -/
def leaves (path : List Step) (m : Node) : Bool :=
  match m.form with
  | .returnStmt => !path.any (·.parent.form.isFunction)
  | .yieldExpr => !enters Step.intoFunction none path
  | .breakStmt none => !(nearest path).any (·.parent.form.isLoop) && !(nearest path).any (·.parent.form == .switchStmt)
  | .continueStmt none => !(nearest path).any (·.parent.form.isLoop)
  | .breakStmt (some l) | .continueStmt (some l) => !path.any (·.parent.form == .labeled l)
  | .thisRef | .superRef => !enters Step.intoReceiver none path
  | .ident name => name == "this" && namesElement path && !enters Step.intoReceiver none path
  | _ => false

/-- A node that is taken for one that does not leave: the walk asks for a function or class around it, wherever in that
it is, and does not ask for `super` and the names of elements. -/
def overlooked (path : List Step) (m : Node) : Bool :=
  match m.form with
  | .yieldExpr => path.any (·.parent.form.isFunction)
  | .thisRef => path.any (·.parent.form.hasReceiver)
  | .superRef | .ident _ => true
  | _ => false

theorem isFunction_of_intoFunction {s : Step} {next : Option Step} (h : s.intoFunction next = true) :
    s.parent.form.isFunction = true := by
  unfold Step.intoFunction at h
  split at h <;> simp_all [Form.isFunction]

theorem hasReceiver_of_intoReceiver {s : Step} {next : Option Step} (h : s.intoReceiver next = true) :
    s.parent.form.hasReceiver = true := by
  unfold Step.intoReceiver at h
  split at h
  · cases h
  · simp_all [Form.hasReceiver]
  · unfold Step.intoFunction at h
    split at h <;> simp_all [Form.hasReceiver]

theorem exists_of_enters {into : Step → Option Step → Bool} : ∀ {next : Option Step} {path : List Step},
    enters into next path = true → ∃ s ∈ path, ∃ next, into s next = true
  | _, [], h => by cases h
  | next, s :: path, h => by
    rcases Bool.or_eq_true _ _ ▸ h with hhere | hfurther
    · exact ⟨s, List.mem_cons_self, next, hhere⟩
    · obtain ⟨s', hs', hinto⟩ := exists_of_enters hfurther
      exact ⟨s', List.mem_cons_of_mem s hs', hinto⟩

/-! ## What the walk counts -/

def along (path : List Step) : Context := path.foldr (fun s c => c.inside s.parent.form) {}

theorem along_cons (s : Step) (path : List Step) : along (s :: path) = (along path).inside s.parent.form := rfl

theorem nearest_cons (s : Step) (path : List Step) :
    nearest (s :: path) = if s.parent.form.isFunction then [] else s :: nearest path := by
  rw [nearest, List.takeWhile_cons]
  cases s.parent.form.isFunction <;> rfl

theorem inside_functions (c : Context) (f : Form) :
    (c.inside f).functions = if f.isFunction then c.functions + 1 else c.functions := by
  cases f <;> rfl

theorem inside_receivers (c : Context) (f : Form) :
    (c.inside f).receivers = if f.hasReceiver then c.receivers + 1 else c.receivers := by
  cases f <;> rfl

theorem inside_loops (c : Context) (f : Form) :
    (c.inside f).loops = if f.isFunction then 0 else if f.isLoop then c.loops + 1 else c.loops := by
  cases f <;> rfl

theorem inside_switches (c : Context) (f : Form) :
    (c.inside f).switches = if f.isFunction then 0 else if f == .switchStmt then c.switches + 1 else c.switches := by
  cases f <;> rfl

theorem inside_labels (c : Context) (f : Form) (l : String) :
    (c.inside f).labels.contains l = (f == .labeled l || c.labels.contains l) := by
  cases f
  case labeled name =>
    show (name :: c.labels).contains l = _
    rw [List.contains_cons]
    congr 1
    rw [Bool.eq_iff_iff, beq_iff_eq, beq_iff_eq, Form.labeled.injEq]
    exact eq_comm
  all_goals rfl

/-- What is counted for every form of a sort is zero when no such form is on the path. -/
theorem along_counted {count : Context → Nat} {sort : Form → Bool} (hstart : count {} = 0)
    (hinside : ∀ c f, count (c.inside f) = if sort f then count c + 1 else count c) (path : List Step) :
    (count (along path) == 0) = !path.any (sort ·.parent.form) := by
  induction path with
  | nil => simp [along, hstart]
  | cons s path ih =>
    rw [along_cons, hinside, List.any_cons]
    cases sort s.parent.form with
    | true => simp
    | false => simpa using ih

/-- What is counted anew in every function is zero when no such form is behind the last function. -/
theorem along_recounted {count : Context → Nat} {sort : Form → Bool} (hstart : count {} = 0)
    (hinside : ∀ c f, count (c.inside f) = if f.isFunction then 0 else if sort f then count c + 1 else count c)
    (path : List Step) : (count (along path) == 0) = !(nearest path).any (sort ·.parent.form) := by
  induction path with
  | nil => simp [along, nearest, hstart]
  | cons s path ih =>
    rw [along_cons, hinside, nearest_cons]
    cases s.parent.form.isFunction with
    | true => simp
    | false =>
      cases hsort : sort s.parent.form with
      | true => simp [hsort]
      | false => simpa [hsort] using ih

theorem along_functions (path : List Step) : ((along path).functions == 0) = !path.any (·.parent.form.isFunction) :=
  along_counted rfl inside_functions path

theorem along_receivers (path : List Step) : ((along path).receivers == 0) = !path.any (·.parent.form.hasReceiver) :=
  along_counted rfl inside_receivers path

theorem along_loops (path : List Step) : ((along path).loops == 0) = !(nearest path).any (·.parent.form.isLoop) :=
  along_recounted rfl inside_loops path

theorem along_switches (path : List Step) :
    ((along path).switches == 0) = !(nearest path).any (·.parent.form == .switchStmt) :=
  along_recounted rfl inside_switches path

theorem along_labels (path : List Step) (l : String) :
    (along path).labels.contains l = path.any (·.parent.form == .labeled l) := by
  induction path with
  | nil => rfl
  | cons s path ih =>
    rw [along_cons, inside_labels, List.any_cons]
    exact congrArg _ ih

theorem blocked_blocking_if {b : Bool} {reason : String} :
    (if b then blocking reason else {}).blocked = none ↔ b = false := by
  cases b <;> simp [blocking]

theorem any_isFunction_of_enters {path : List Step} (h : enters Step.intoFunction none path = true) :
    path.any (·.parent.form.isFunction) = true := by
  obtain ⟨s, hs, next, hinto⟩ := exists_of_enters h
  exact List.any_eq_true.mpr ⟨s, hs, isFunction_of_intoFunction hinto⟩

theorem any_hasReceiver_of_enters {path : List Step} (h : enters Step.intoReceiver none path = true) :
    path.any (·.parent.form.hasReceiver) = true := by
  obtain ⟨s, hs, next, hinto⟩ := exists_of_enters h
  exact List.any_eq_true.mpr ⟨s, hs, hasReceiver_of_intoReceiver hinto⟩

theorem blocked_ofForm_along (path : List Step) (m : Node) :
    (ofForm (along path) m.form).blocked = none ↔ (leaves path m = true → overlooked path m = true) := by
  unfold leaves overlooked
  cases m.form
  case returnStmt =>
    rw [ofForm, along_functions, blocked_blocking_if]
    simp
  case yieldExpr =>
    rw [ofForm, along_functions, blocked_blocking_if]
    cases hfunction : path.any (·.parent.form.isFunction) with
    | true => simp
    | false =>
      have hnone := fun h => Bool.false_ne_true (hfunction.symm.trans (any_isFunction_of_enters h))
      simp [Bool.eq_false_iff.mpr hnone]
  case thisRef =>
    rw [ofForm, along_receivers, blocked_blocking_if]
    cases hreceiver : path.any (·.parent.form.hasReceiver) with
    | true => simp
    | false =>
      have hnone := fun h => Bool.false_ne_true (hreceiver.symm.trans (any_hasReceiver_of_enters h))
      simp [Bool.eq_false_iff.mpr hnone]
  case breakStmt label =>
    cases label with
    | some l =>
      simp only [ofForm, along_labels, blocked_blocking_if]
      simp
    | none =>
      simp only [ofForm, along_loops, along_switches, blocked_blocking_if]
      simp
  case continueStmt label =>
    cases label with
    | some l =>
      simp only [ofForm, along_labels, blocked_blocking_if]
      simp
    | none =>
      simp only [ofForm, along_loops, blocked_blocking_if]
      simp
  all_goals simp [ofForm]

/-! ## The walk over a statement -/

theorem blocked_andThen (a b : Flow) : (a.andThen b).blocked = none ↔ a.blocked = none ∧ b.blocked = none :=
  Option.or_eq_none_iff

theorem blocked_ofNodes (c : Context) (ns : List Node) :
    (ofNodes c ns).blocked = none ↔ ∀ n ∈ ns, (ofNode c n).blocked = none := by
  induction ns with
  | nil => simp [ofNodes]
  | cons n ns ih => rw [ofNodes, blocked_andThen, ih, List.forall_mem_cons]

theorem ofNode_eq (c : Context) (n : Node) :
    ofNode c n = (ofForm c n.form).andThen (ofNodes (c.inside n.form) n.kids) := by
  cases n
  rfl

/-- The walk over a node asks every node below it with the context that its path makes. -/
theorem blocked_ofNode (n : Node) : ∀ c, (ofNode c n).blocked = none ↔ ∀ path m, Below n path m →
    (ofForm (path.foldr (fun s c => c.inside s.parent.form) c) m.form).blocked = none := by
  induction n using Node.inductOn with
  | h n ih =>
    intro c
    rw [ofNode_eq, blocked_andThen, blocked_ofNodes]
    constructor
    · rintro ⟨hown, hkids⟩ path m hbelow
      cases hbelow with
      | here => exact hown
      | step hk hbelow =>
        rw [List.foldr_append]
        have hkid := List.mem_of_getElem? hk
        exact (ih _ hkid _).mp (hkids _ hkid) _ _ hbelow
    · intro hall
      refine ⟨hall [] n (.here n), fun k hk => (ih k hk _).mpr fun path m hbelow => ?_⟩
      obtain ⟨i, hi⟩ := List.mem_iff_getElem?.mp hk
      have hblocked := hall _ _ (.step hi hbelow)
      rwa [List.foldr_append] at hblocked

/-! ## The walk over a selection -/

def Takes (lo hi : Nat) (n : Node) : Prop := n.isStmt = true ∧ lo ≤ n.lo ∧ n.hi ≤ hi

/-- A node that the walk over a selection goes on below: no statement, or one that meets the selection from outside. -/
def Passes (lo hi : Nat) (n : Node) : Prop := n.isStmt = true → ¬(lo ≤ n.lo ∧ n.hi ≤ hi) ∧ n.lo < hi ∧ lo < n.hi

/-- The walk over a selection comes to a statement of it. -/
inductive Selects (lo hi : Nat) : Node → Node → Prop
  | here {n : Node} : Takes lo hi n → Selects lo hi n n
  | through {n k st : Node} : Passes lo hi n → k ∈ n.kids → Selects lo hi k st → Selects lo hi n st

variable {lo hi : Nat}

/-- The walk over a selection takes a statement, goes on below a node, or leaves it out. -/
theorem selectedIn_cases (lo hi : Nat) (n : Node) :
    Takes lo hi n ∧ ¬Passes lo hi n ∧ selectedIn lo hi n = ofNode {} n ∨
    ¬Takes lo hi n ∧ Passes lo hi n ∧ selectedIn lo hi n = selectedInAll lo hi n.kids ∨
    ¬Takes lo hi n ∧ ¬Passes lo hi n ∧ selectedIn lo hi n = {} := by
  have heq : selectedIn lo hi n =
      if n.isStmt then
        if lo ≤ n.lo && n.hi ≤ hi then ofNode {} n
        else if n.lo < hi && lo < n.hi then selectedInAll lo hi n.kids
        else {}
      else selectedInAll lo hi n.kids := by
    cases n
    rfl
  rw [heq, Takes, Passes]
  by_cases hstmt : n.isStmt = true
  · by_cases hinside : lo ≤ n.lo ∧ n.hi ≤ hi
    · simp [hstmt, hinside]
    · by_cases hmeets : n.lo < hi ∧ lo < n.hi
      · simp [hstmt, hinside, hmeets]
      · simp [hstmt, hinside, hmeets]
  · simp [hstmt]

theorem blocked_selectedInAll (ns : List Node) :
    (selectedInAll lo hi ns).blocked = none ↔ ∀ n ∈ ns, (selectedIn lo hi n).blocked = none := by
  induction ns with
  | nil => simp [selectedInAll]
  | cons n ns ih => rw [selectedInAll, blocked_andThen, ih, List.forall_mem_cons]

theorem blocked_selectedIn (n : Node) :
    (selectedIn lo hi n).blocked = none ↔ ∀ st, Selects lo hi n st → (ofNode {} st).blocked = none := by
  induction n using Node.inductOn with
  | h n ih =>
    obtain ⟨htakes, hstops, heq⟩ | ⟨hnone, hpasses, heq⟩ | ⟨hnone, hstops, heq⟩ := selectedIn_cases lo hi n
    · rw [heq]
      refine ⟨fun hblocked st hst => ?_, fun hall => hall n (.here htakes)⟩
      cases hst with
      | here => exact hblocked
      | through hpasses => exact absurd hpasses hstops
    · rw [heq, blocked_selectedInAll]
      constructor
      · intro hall st hst
        cases hst with
        | here htakes => exact absurd htakes hnone
        | through _ hk hst => exact (ih _ hk).mp (hall _ hk) st hst
      · exact fun hall k hk => (ih k hk).mpr fun st hst => hall st (.through hpasses hk hst)
    · rw [heq]
      refine iff_of_true rfl fun st hst => ?_
      cases hst with
      | here htakes => exact absurd htakes hnone
      | through hpasses => exact absurd hpasses hstops

/-- The walk over a selection refuses it when something leaves a statement of it that is not overlooked. -/
theorem blocked_ofSelection (p : Parsed) : (ofSelection p lo hi).blocked = none ↔
    ∀ st, Selects lo hi p.module st → ∀ path m, Below st path m → leaves path m = true → overlooked path m = true := by
  rw [ofSelection, blocked_selectedIn]
  refine forall_congr' fun st => imp_congr_right fun _ => (blocked_ofNode st {}).trans ?_
  exact forall_congr' fun path => forall_congr' fun m => imp_congr_right fun _ => blocked_ofForm_along path m

end Flow

/-! ## Runs of statements -/

/-- The statements that stand side by side directly below a node. -/
def Node.listed (n : Node) : List Node :=
  match n.form with
  | .moduleRoot => n.kids.filter Node.isStmt
  | .block => n.kids
  | .switchCase => n.kids.drop 1
  | _ => []

/-- A tree whose statements are nested as their ranges are. -/
structure Parsed.StatementsNest (p : Parsed) : Prop where
  stmts : ∀ n ∈ p.module.all, ∀ st ∈ n.listed, st.isStmt = true ∧ st.lo < st.hi
  ordered : ∀ n ∈ p.module.all, n.listed.Pairwise fun a b => a.hi ≤ b.lo
  /-- a statement in another one, listed below some node of it, comes behind the first character of that -/
  inside : ∀ a ∈ p.module.all, a.isStmt = true → ∀ n ∈ a.all, ∀ st ∈ n.listed, a.lo < st.lo ∧ st.hi ≤ a.hi

theorem siblings_cases (lo hi : Nat) (n : Node) : siblings lo hi n = [] ∨ siblings lo hi n = n.listed := by
  unfold siblings
  split
  next hform =>
    split
    · exact Or.inl rfl
    · exact Or.inr (by rw [Node.listed, hform])
  next hform => exact Or.inr (by rw [Node.listed, hform])
  next hform => exact Or.inr (by rw [Node.listed, hform])
  next => exact Or.inl rfl

theorem siblings_sublist (lo hi : Nat) (n : Node) : (siblings lo hi n).Sublist n.listed := by
  rcases siblings_cases lo hi n with hnone | hall
  · exact hnone ▸ List.nil_sublist _
  · exact hall ▸ List.Sublist.refl _

theorem Node.mem_kids_of_listed {n st : Node} (h : st ∈ n.listed) : st ∈ n.kids := by
  unfold Node.listed at h
  split at h
  · exact List.mem_of_mem_filter h
  · exact h
  · exact List.mem_of_mem_drop h
  · cases h

/-- Statements in order that reach from `lo` to `hi` lie between them. -/
theorem Run.within {lo hi : Nat} {run : List Node} (h : Run lo hi run) (hsome : ∀ st ∈ run, st.lo < st.hi)
    (hordered : run.Pairwise fun a b => a.hi ≤ b.lo) {st : Node} (hst : st ∈ run) : lo ≤ st.lo ∧ st.hi ≤ hi := by
  obtain ⟨⟨first, hfirst, rfl⟩, last, hlast, rfl⟩ := h
  have hdiffer := hsome st hst
  constructor
  · obtain ⟨rest, rfl⟩ := List.head?_eq_some_iff.mp hfirst
    rcases List.mem_cons.mp hst with rfl | hst
    · exact Nat.le_refl _
    · have hle := (List.pairwise_cons.mp hordered).1 st hst
      have hfirst := hsome first List.mem_cons_self
      omega
  · obtain ⟨front, rfl⟩ := List.getLast?_eq_some_iff.mp hlast
    rcases List.mem_append.mp hst with hst | hst
    · have hle := (List.pairwise_append.mp hordered).2.2 st hst last (by simp)
      have hlast := hsome last (by simp)
      omega
    · rw [List.mem_singleton.mp hst]

namespace Flow

variable {lo hi : Nat} {p : Parsed} {n : Node} {before run after : List Node}

theorem Selects.of_mem {m st : Node} (h : Selects lo hi n st) (hn : n ∈ m.all)
    (hpass : ∀ a ∈ m.all, n ∈ a.all → Passes lo hi a) : Selects lo hi m st := by
  induction m using Node.inductOn with
  | h m ih =>
    rcases Node.mem_all_iff.mp hn with rfl | ⟨k, hk, hnk⟩
    · exact h
    · refine .through (hpass m (Node.mem_all_self m) hn) hk (ih k hk hnk fun a ha => ?_)
      exact hpass a (Node.mem_all_iff.mpr (Or.inr ⟨k, hk, ha⟩))

/-- The walk over a run of statements comes to each of them. -/
theorem selects_of_run (h : p.StatementsNest) (hn : n ∈ p.module.all)
    (hsiblings : siblings lo hi n = before ++ run ++ after) (hrun : Run lo hi run) {st : Node} (hst : st ∈ run) :
    Selects lo hi p.module st := by
  have hsub : run.Sublist n.listed :=
    ((List.sublist_append_right before run).trans (List.sublist_append_left _ after)).trans
      (hsiblings ▸ siblings_sublist lo hi n)
  have hsome : ∀ st ∈ run, st.lo < st.hi := fun st hst => (h.stmts n hn st (hsub.subset hst)).2
  have hwithin : ∀ st ∈ run, lo ≤ st.lo ∧ st.hi ≤ hi := fun st hst =>
    hrun.within hsome ((h.ordered n hn).sublist hsub) hst
  -- the statements around `n` begin before the first one of the run
  have hpass : ∀ a ∈ p.module.all, n ∈ a.all → Passes lo hi a := fun a ha hna hstmt => by
    obtain ⟨first, hfirst, rfl⟩ := hrun.starts
    have hmem := List.mem_of_mem_head? hfirst
    have hinside := h.inside a ha hstmt n hna first (hsub.subset hmem)
    have hsome := hsome first hmem
    have hwithin := hwithin first hmem
    omega
  have hlisted := hsub.subset hst
  have hhere : Selects lo hi n st :=
    .through (hpass n hn (Node.mem_all_self n)) (Node.mem_kids_of_listed hlisted)
      (.here ⟨(h.stmts n hn st hlisted).1, hwithin st hst⟩)
  exact hhere.of_mem hn hpass

/-- The walk over a run of statements comes to each of them. It lets a selection pass when all that leaves a statement
of it is overlooked: no `return` and no jump, and `yield` and `this` only from the decorators, names and heritage of
functions and classes. -/
theorem ofSelection_blocked_iff (h : p.StatementsNest) (hn : n ∈ p.module.all)
    (hsiblings : siblings lo hi n = before ++ run ++ after) (hrun : Run lo hi run) :
    (∀ st ∈ run, Selects lo hi p.module st) ∧
    ((ofSelection p lo hi).blocked = none ↔ ∀ st, Selects lo hi p.module st →
      ∀ path m, Below st path m → leaves path m = true → overlooked path m = true) :=
  ⟨fun _ hst => selects_of_run h hn hsiblings hrun hst, blocked_ofSelection p⟩

/-- A class in a method, with the `this` of the method in its heritage. -/
def derived : Node :=
  .mk .stmt (.classDecl "C") 24 52
    [.mk .plain (.ident "C") 30 31 [],
      .mk .plain .classBody 24 52
        [.mk .expr .member 40 49 [.mk .expr .thisRef 40 44 [], .mk .plain .label 45 49 []], .absent, .absent]]

/-- The class with the method that the other class is in. -/
def withDerived : Parsed where
  module := .mk .plain .moduleRoot 0 59
    [.mk .stmt (.classDecl "A") 0 58
      [.mk .plain (.ident "A") 6 7 [],
        .mk .plain .classBody 0 58
          [.mk .plain .classMethod 12 56
            [.mk .plain .label 12 15 [],
              .mk .plain .functionBody 12 56 [.mk .plain .block 18 56 [derived], .absent, .absent]],
            .absent, .absent, .absent]]]
  comments := []

/-- The other class passes, and the `this` in it leaves it. -/
theorem ofSelection_blocked_iff_derived : withDerived.StatementsNest ∧ Run 24 52 [derived] ∧
    (ofSelection withDerived 24 52).blocked = none ∧ Selects 24 52 withDerived.module derived ∧
    ∃ path m, Below derived path m ∧ m.form = .thisRef ∧ leaves path m = true ∧ overlooked path m = true := by
  have hnest : withDerived.StatementsNest := ⟨by decide +kernel, by decide +kernel, by decide +kernel⟩
  have hrun : Run 24 52 [derived] := ⟨⟨derived, rfl, rfl⟩, derived, rfl, rfl⟩
  have hpasses : (ofSelection withDerived 24 52).blocked = none := by decide +kernel
  have hblock : .mk .plain .block 18 56 [derived] ∈ withDerived.module.all := by
    simp [withDerived, Node.all, Node.allOf]
  have hsiblings : siblings 24 52 (.mk .plain .block 18 56 [derived]) = [] ++ [derived] ++ [] := rfl
  obtain ⟨hselects, hiff⟩ := ofSelection_blocked_iff hnest hblock hsiblings hrun
  have hderived := hselects derived List.mem_cons_self
  have hbelow : Below derived [⟨(derived.kid 1).kid 0, 0⟩, ⟨derived.kid 1, 0⟩, ⟨derived, 1⟩]
      (((derived.kid 1).kid 0).kid 0) :=
    @Below.step _ _ _ 1 [_, _] rfl (@Below.step _ _ _ 0 [_] rfl (@Below.step _ _ _ 0 [] rfl (.here _)))
  exact ⟨hnest, hrun, hpasses, hderived, _, _, hbelow, rfl, by decide +kernel,
    hiff.mp hpasses _ hderived _ _ hbelow (by decide +kernel)⟩

end Flow

end Refactor.Script
