import Mathlib.Data.List.Nodup
import Refactor.Script.ExtractFunction
import Refactor.Proofs.Script.Trees

/-!
# Selected statements

A selection of whole statements is a run of siblings. The function made of it takes what the run reads of the names bound
before it, and gives back what it declares and the rest of its surroundings reads.

* `Run`, `statementRun?_spec` — the statements that a selection covers
* `enclosing?_spec` — the top-level node around them
* `neededNames_spec`, `resultNames_spec` — parameters and results
* `extractFunction_eq_ok` — the edits
* `extractFunction_interface` — what the new function takes and gives back
-/

namespace Refactor.Script

open Text (utf8Size)

/-! ## Runs of statements -/

/-- Siblings one after the other that reach from `lo` to `hi`. -/
structure Run (lo hi : Nat) (run : List Node) : Prop where
  starts : ∃ n ∈ run.head?, n.lo = lo
  ends : ∃ n ∈ run.getLast?, n.hi = hi

/-- The walk that has begun a run ends it with the node that ends at `hi`. -/
theorem runFrom_some {lo hi : Nat} {declared inside : List (String × Bool)} :
    ∀ {ns : List Node}, runFrom lo hi (some declared) ns = some inside →
      ∃ run after, ns = run ++ after ∧ (∃ n ∈ run.getLast?, n.hi = hi) ∧ inside = declared ++ run.flatMap declaredNames
  | [], h => by cases h
  | n :: ns, h => by
    simp only [runFrom, Option.isNone_some, Bool.false_and, Bool.false_eq_true, if_false] at h
    split at h
    · rename_i hend
      cases h
      exact ⟨[n], ns, rfl, ⟨n, rfl, eq_of_beq hend⟩, by simp⟩
    · split at h
      · cases h
      · obtain ⟨run, after, rfl, ⟨last, hlast, hhi⟩, rfl⟩ := runFrom_some h
        refine ⟨n :: run, after, rfl, ⟨last, ?_, hhi⟩, by simp⟩
        exact List.mem_getLast?_cons hlast

theorem runFrom_none {lo hi : Nat} {inside : List (String × Bool)} :
    ∀ {ns : List Node}, runFrom lo hi none ns = some inside →
      ∃ before run after, ns = before ++ run ++ after ∧ Run lo hi run ∧ inside = run.flatMap declaredNames
  | [], h => by cases h
  | n :: ns, h => by
    by_cases hstart : n.lo = lo
    · have hbegun : runFrom lo hi (some []) (n :: ns) = some inside := by
        simpa only [runFrom, Option.isNone_none, Option.isNone_some, hstart, beq_self_eq_true, Bool.true_and,
          Bool.false_and, if_true, Bool.false_eq_true, if_false] using h
      obtain ⟨run, after, heq, ⟨last, hlast, hhi⟩, rfl⟩ := runFrom_some hbegun
      refine ⟨[], run, after, heq, ⟨?_, last, hlast, hhi⟩, rfl⟩
      cases run with
      | nil => cases hlast
      | cons m run =>
        cases heq
        exact ⟨_, rfl, hstart⟩
    · have hlater : runFrom lo hi none ns = some inside := by
        simpa only [runFrom, Option.isNone_none, Bool.true_and, beq_iff_eq, hstart, if_false] using h
      obtain ⟨before, run, after, rfl, hrun, hinside⟩ := runFrom_none hlater
      exact ⟨n :: before, run, after, rfl, hrun, hinside⟩

/-- A selection of statements covers a run of them below one node, and gets what they declare. -/
theorem statementRun?_spec {p : Parsed} {lo hi : Nat} {inside : List (String × Bool)}
    (h : statementRun? p lo hi = some inside) :
    ∃ n ∈ p.module.all, ∃ before run after, siblings lo hi n = before ++ run ++ after ∧ Run lo hi run ∧
      inside = run.flatMap declaredNames := by
  obtain ⟨n, hn, hrun⟩ := List.exists_of_findSome?_eq_some h
  exact ⟨n, hn, runFrom_none hrun⟩

/-! ## Parameters and results -/

namespace Extraction

open Parsed

variable {p : Parsed} {lo hi : Nat} {inside : List (String × Bool)}

theorem enclosing?_spec {a b : Nat} (h : enclosing? p lo hi = some (a, b)) :
    ∃ n ∈ p.body, n.lo = a ∧ n.hi = b ∧ a < lo ∧ hi ≤ b := by
  obtain ⟨n, hn, hrange⟩ := List.mem_map.mp (List.mem_of_find?_eq_some h)
  cases hrange
  have haround := List.find?_some h
  simp only [Bool.and_eq_true, decide_eq_true_eq] at haround
  exact ⟨n, hn, rfl, rfl, haround⟩

theorem any_declared_iff {x : String} : inside.any (·.1 == x) = true ↔ x ∈ inside.map Prod.fst := by
  simp [List.any_eq_true]

/-- A binding whose name would only be found again adds nothing. -/
theorem found_or_bound_cons {acc : List String} {b : Binding} {bs : List Binding} (needed : String → Prop)
    (h : needed b.name → b.name ∈ acc) (x : String) :
    (x ∈ acc ∨ (∃ c ∈ b :: bs, c.name = x) ∧ needed x) ↔ x ∈ acc ∨ (∃ c ∈ bs, c.name = x) ∧ needed x := by
  rw [List.exists_mem_cons_iff]
  constructor
  · rintro (hthere | ⟨rfl | hbound, hneeded⟩)
    · exact Or.inl hthere
    · exact Or.inl (h hneeded)
    · exact Or.inr ⟨hbound, hneeded⟩
  · exact Or.imp_right fun ⟨hbound, hneeded⟩ => ⟨Or.inr hbound, hneeded⟩

/-- Of the names bound before the selection, those that it reads and does not declare are needed, each once, and none that
it does not declare is written in it. -/
theorem neededNames_spec {bs : List Binding} {acc names : List String}
    (h : neededNames (Scope.ofModule p) lo hi inside bs acc = .ok names) (hnodup : acc.Nodup)
    (hacc : ∀ x ∈ acc, ¬p.Writes x lo hi) :
    names.Nodup ∧
      (∀ x, x ∈ names ↔ x ∈ acc ∨ (∃ b ∈ bs, b.name = x) ∧ p.Reads x lo hi ∧ x ∉ inside.map Prod.fst) ∧
      ∀ b ∈ bs, b.name ∉ inside.map Prod.fst → ¬p.Writes b.name lo hi := by
  fun_induction neededNames (Scope.ofModule p) lo hi inside bs acc with
  | case1 acc =>
    cases h
    exact ⟨hnodup, by simp, by simp⟩
  | case2 b bs acc hskip ih =>
    -- the name is there already, or declared in the selection
    rw [Bool.or_eq_true, List.contains_iff_mem, any_declared_iff] at hskip
    obtain ⟨hnames, hiff, hwrites⟩ := ih h hnodup hacc
    refine ⟨hnames, fun x => (hiff x).trans ?_,
      List.forall_mem_cons.mpr ⟨fun hout => hacc _ (hskip.resolve_right hout), hwrites⟩⟩
    exact (found_or_bound_cons (fun x => p.Reads x lo hi ∧ x ∉ inside.map Prod.fst)
      (fun hneeded => hskip.resolve_right hneeded.2) x).symm
  | case3 => cases h
  | case4 b bs acc hskip hwrite hread ih =>
    rw [isWrittenBetween_iff] at hwrite
    have hunread : ¬p.Reads b.name lo hi := by simp [← readsBetween_isEmpty, hread]
    obtain ⟨hnames, hiff, hwrites⟩ := ih h hnodup hacc
    refine ⟨hnames, fun x => (hiff x).trans ?_, List.forall_mem_cons.mpr ⟨fun _ => hwrite, hwrites⟩⟩
    exact (found_or_bound_cons (fun x => p.Reads x lo hi ∧ x ∉ inside.map Prod.fst)
      (fun hneeded => absurd hneeded.1 hunread) x).symm
  | case5 b bs acc hskip hwrite hread ih =>
    rw [Bool.or_eq_true, List.contains_iff_mem, any_declared_iff, not_or] at hskip
    rw [isWrittenBetween_iff] at hwrite
    rw [Bool.not_eq_true, readsBetween_isEmpty] at hread
    have hacc' : ∀ x ∈ acc ++ [b.name], ¬p.Writes x lo hi := by
      simpa [or_imp, forall_and] using And.intro hacc hwrite
    have hnodup' : (acc ++ [b.name]).Nodup := by
      rw [← List.concat_eq_append]
      exact List.Nodup.concat hskip.1 hnodup
    obtain ⟨hnames, hiff, hwrites⟩ := ih h hnodup' hacc'
    refine ⟨hnames, fun x => ?_, List.forall_mem_cons.mpr ⟨fun _ => hwrite, hwrites⟩⟩
    rw [hiff, List.mem_append, List.mem_singleton, List.exists_mem_cons_iff]
    constructor
    · rintro ((hthere | rfl) | ⟨hbound, hneeded⟩)
      · exact Or.inl hthere
      · exact Or.inr ⟨Or.inl rfl, hread, hskip.2⟩
      · exact Or.inr ⟨Or.inr hbound, hneeded⟩
    · rintro (hthere | ⟨rfl | hbound, hneeded⟩)
      · exact Or.inl (Or.inl hthere)
      · exact Or.inl (Or.inr rfl)
      · exact Or.inr ⟨hbound, hneeded⟩

/-- Of the names that the selection declares, those that are read behind it are given back, each once. -/
theorem resultNames_spec (p : Parsed) (hi stop : Nat) (inside : List (String × Bool)) (acc : List String × Bool)
    (h : acc.1.Nodup) :
    (resultNames (Scope.ofModule p) hi stop inside acc).1.Nodup ∧
      ∀ x, x ∈ (resultNames (Scope.ofModule p) hi stop inside acc).1 ↔
        x ∈ acc.1 ∨ x ∈ inside.map Prod.fst ∧ p.Reads x hi stop := by
  fun_induction resultNames (Scope.ofModule p) hi stop inside acc with
  | case1 acc => exact ⟨h, by simp⟩
  | case2 x m rest names anyMutable hskip ih =>
    rw [Bool.or_eq_true, List.contains_iff_mem] at hskip
    refine ⟨(ih h).1, fun y => ?_⟩
    rw [(ih h).2, List.map_cons, List.mem_cons]
    constructor
    · exact Or.imp_right fun ⟨hlater, hread⟩ => ⟨Or.inr hlater, hread⟩
    · rintro (hthere | ⟨rfl | hlater, hread⟩)
      · exact Or.inl hthere
      · refine Or.inl (hskip.resolve_right fun hnone => ?_)
        simp [← readsBetween_isEmpty, hnone] at hread
      · exact Or.inr ⟨hlater, hread⟩
  | case3 x m rest names anyMutable hskip ih =>
    rw [Bool.or_eq_true, List.contains_iff_mem, not_or, Bool.not_eq_true, readsBetween_isEmpty] at hskip
    have hnodup : (names ++ [x]).Nodup := by
      rw [← List.concat_eq_append]
      exact List.Nodup.concat hskip.1 h
    refine ⟨(ih hnodup).1, fun y => ?_⟩
    rw [(ih hnodup).2, List.mem_append, List.mem_singleton, List.map_cons, List.mem_cons]
    constructor
    · rintro ((hthere | rfl) | ⟨hlater, hread⟩)
      · exact Or.inl hthere
      · exact Or.inr ⟨Or.inl rfl, hskip.2⟩
      · exact Or.inr ⟨Or.inr hlater, hread⟩
    · rintro (hthere | ⟨rfl | hlater, hread⟩)
      · exact Or.inl (Or.inl hthere)
      · exact Or.inl (Or.inr rfl)
      · exact Or.inr ⟨hlater, hread⟩

/-- What a function takes from and gives back to the node from `a` to `b` around the statements from `lo` to `hi`, which
declare the names `inside`. -/
structure IsInterface (e : Extraction) (p : Parsed) (a b lo hi : Nat) (inside : List String) : Prop where
  /-- it takes what is bound before the statements and read in them, unless they declare it -/
  params : ∀ x, x ∈ e.params ↔ p.Binds x a lo ∧ p.Reads x lo hi ∧ x ∉ inside
  /-- it gives back what the statements declare and what is read behind them -/
  results : ∀ x, x ∈ e.results ↔ x ∈ inside ∧ p.Reads x hi b
  /-- nothing that is bound before the statements is assigned in them, unless they declare it -/
  unwritten : ∀ x, p.Binds x a lo → x ∉ inside → ¬p.Writes x lo hi

variable {s : Source} {e : Extraction}

theorem exists_boundBetween_iff {x : String} {a b : Nat} :
    (∃ c ∈ (Scope.ofModule p).bindings.filter fun c => a ≤ c.offset && c.offset < b, c.name = x) ↔ p.Binds x a b := by
  simp only [List.mem_filter, mem_bindings, Bool.and_eq_true, decide_eq_true_eq]
  constructor
  · rintro ⟨c, ⟨⟨n, hn, hc⟩, hplace⟩, rfl⟩
    exact ⟨n, hn, c.offset, hc, hplace⟩
  · rintro ⟨n, hn, o, ho, hplace⟩
    exact ⟨⟨x, o⟩, ⟨⟨n, hn, ho⟩, hplace⟩, rfl⟩

/-- What an analysed selection takes and gives back. -/
theorem analyze_spec (h : analyze s p lo hi inside = .ok e) :
    e.params.Nodup ∧ e.results.Nodup ∧
      ∀ a b, enclosing? p lo hi = some (a, b) → e.IsInterface p a b lo hi (inside.map Prod.fst) := by
  have hresults (stop : Nat) := resultNames_spec p hi stop inside ([], false) List.nodup_nil
  unfold analyze at h
  dsimp only at h
  split at h
  · cases h
  split at h
  · rename_i start stop haround
    obtain ⟨params, hparams, h⟩ := bind_eq_ok h
    cases h
    obtain ⟨hnodup, hneeded, hwrites⟩ := neededNames_spec hparams List.nodup_nil (by simp)
    refine ⟨hnodup, (hresults _).1, fun a b hab => ?_⟩
    obtain ⟨rfl, rfl⟩ : start = a ∧ stop = b := by simpa [haround] using hab
    refine ⟨fun x => ?_, fun x => ?_, fun x hbinds hout => ?_⟩
    · rw [hneeded, exists_boundBetween_iff]
      simp
    · rw [(hresults _).2, haround]
      simp
    · obtain ⟨c, hc, rfl⟩ := exists_boundBetween_iff.mpr hbinds
      exact hwrites c hc hout
  · rename_i hnone
    cases h
    exact ⟨List.nodup_nil, (hresults _).1, fun a b hab => by simp [hnone] at hab⟩

end Extraction

variable {s : Source} {p : Parsed} {range : Span} {name : String} {es : List TextEdit}

theorem extractFunction_eq_ok (h : extractFunction s (.ok p) range name = .ok es) :
    ∃ lo hi first last inside e body newline place gap call define, s.selection range = .ok (lo, hi) ∧
      s.linesAround lo hi = .ok (first, last, true) ∧ statementRun? p lo hi = some inside ∧
      Extraction.analyze s p lo hi inside = .ok e ∧ s.slice first last = .ok body ∧
      functionPlace s p lo hi last = .ok place ∧ newline ∈ [[], ['\n']] ∧ gap ∈ [[], ['\n']] ∧
      s.replacing first last (Source.indentation body ++ (e.callText name).toList ++ newline) = .ok call ∧
      s.inserting place (gap ++ (e.functionText body name).toList) = .ok define ∧
      es = [call.describedAs ("Call '" ++ name ++ "'"), define.describedAs ("Define '" ++ name ++ "'")] := by
  obtain ⟨⟨lo, hi⟩, hselection, h⟩ := bind_eq_ok h
  obtain ⟨⟨first, last, alone⟩, hlines, h⟩ := bind_eq_ok h
  obtain ⟨halone, h⟩ := unless_eq_ok h
  obtain ⟨p', hp, h⟩ := bind_eq_ok h
  cases hp
  split at h
  · rename_i inside hinside
    obtain ⟨e, he, h⟩ := bind_eq_ok h
    obtain ⟨body, hbody, h⟩ := bind_eq_ok h
    obtain ⟨place, hplace, h⟩ := bind_eq_ok h
    obtain ⟨call, hcall, h⟩ := bind_eq_ok h
    obtain ⟨define, hdefine, h⟩ := bind_eq_ok h
    cases h
    obtain rfl : alone = true := by simpa using halone
    refine ⟨lo, hi, first, last, inside, e, body, _, place,
      if place == utf8Size s && s.getLast? != some '\n' then ['\n'] else [], call, define, hselection, hlines, hinside, he, hbody, hplace, ?_, ?_, hcall, ?_, rfl⟩
    · split <;> simp
    · split <;> simp
    · rw [← hdefine]
      congr 1
      split <;> simp only [List.cons_append, List.nil_append]
  · cases h

/-- A selection becomes a function when it covers a run of statements, whose lines then hold a call. The function takes the
names that the run reads, does not declare and finds bound before it in the top-level node around it, and gives back those
that the run declares and the node reads behind it; the run assigns none of the names bound before it. -/
theorem extractFunction_interface (h : extractFunction s (.ok p) range name = .ok es) :
    ∃ (lo hi : Nat) (e : Extraction) (run : List Node), s.selection range = .ok (lo, hi) ∧ Run lo hi run ∧
      (∃ n ∈ p.module.all, ∃ before after, siblings lo hi n = before ++ run ++ after) ∧
      (∃ body newline gap, newline ∈ [[], ['\n']] ∧ gap ∈ [[], ['\n']] ∧ es.map TextEdit.newText =
        [String.ofList (Source.indentation body ++ (e.callText name).toList ++ newline),
          String.ofList (gap ++ (e.functionText body name).toList)]) ∧
      e.params.Nodup ∧ e.results.Nodup ∧
      ∀ a b, Extraction.enclosing? p lo hi = some (a, b) →
        (∃ m ∈ p.body, m.lo = a ∧ m.hi = b ∧ a < lo ∧ hi ≤ b) ∧
          e.IsInterface p a b lo hi ((run.flatMap declaredNames).map Prod.fst) := by
  obtain ⟨lo, hi, first, last, inside, e, body, newline, place, gap, call, define, hselection, -, hinside, he, -, -,
    hnewline, hgap, hcall, hdefine, rfl⟩ := extractFunction_eq_ok h
  obtain ⟨n, hn, before, run, after, hsiblings, hrun, rfl⟩ := statementRun?_spec hinside
  obtain ⟨hparams, hresults, hinterface⟩ := Extraction.analyze_spec he
  have htexts : [call.describedAs ("Call '" ++ name ++ "'"), define.describedAs ("Define '" ++ name ++ "'")].map
      TextEdit.newText = [String.ofList (Source.indentation body ++ (e.callText name).toList ++ newline),
        String.ofList (gap ++ (e.functionText body name).toList)] := by
    rw [← (Source.replaces_of_replacing hcall).new, ← Source.newText_of_inserting hdefine]
    rfl
  exact ⟨lo, hi, e, run, hselection, hrun, ⟨n, hn, before, after, hsiblings⟩, ⟨body, newline, gap, hnewline, hgap, htexts⟩,
    hparams, hresults, fun a b hab => ⟨Extraction.enclosing?_spec hab, hinterface a b hab⟩⟩

/-- The line that declares a variable reads a parameter, and the line behind it reads the variable. -/
theorem extractFunction_interface_line : ∃ (es : List TextEdit) (e : Extraction) (run : List Node),
    extractFunction sampleText (.ok sample) ⟨1, 2, 1, 14⟩ "g" = .ok es ∧
      es.map TextEdit.newText =
        ["  const b = g(a);\n", "\nfunction g(a) \x7b\n  const b = a;\n  return b;\n\x7d\n"] ∧
      Run 18 30 run ∧ e.IsInterface sample 0 42 18 30 ((run.flatMap declaredNames).map Prod.fst) := by
  have hedits : (extractFunction sampleText (.ok sample) ⟨1, 2, 1, 14⟩ "g").toOption.map (·.map TextEdit.newText) =
      some ["  const b = g(a);\n", "\nfunction g(a) \x7b\n  const b = a;\n  return b;\n\x7d\n"] := by
    decide +kernel
  have hrange : sampleText.selection ⟨1, 2, 1, 14⟩ = .ok (18, 30) := eq_ok_of_toOption (by decide +kernel)
  cases hresult : extractFunction sampleText (.ok sample) ⟨1, 2, 1, 14⟩ "g" with
  | error fault =>
    rw [hresult] at hedits
    cases hedits
  | ok es =>
    rw [hresult] at hedits
    obtain ⟨lo, hi, e, run, hselection, hrun, -, -, -, -, hinterface⟩ := extractFunction_interface hresult
    cases hselection.symm.trans hrange
    exact ⟨es, e, run, rfl, Option.some.inj hedits, hrun, (hinterface 0 42 (by decide)).2⟩

end Refactor.Script
