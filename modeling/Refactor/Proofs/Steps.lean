import Mathlib.Logic.Relation

/-!
# Runs of stateful steps

A step relates the state it starts from to the state it leaves. What is said of one call carries over to
loops and sequences of calls when the relation is reflexive and transitive.

* `Relates R m` — every run of `m` stays inside `R`, whatever it answers
* `Relates.bind`, `Relates.forM`, `Relates.bindExcept` — sequences and loops
* `run_bindExcept`, `run_bind_ok`, `run_tryCatch` — how a sequence of steps that may fail ends
* `Runs P m Q E`, `Ends P m Q` — what a run that starts with `P` ends with, when it may fail and when it may not
* `Blind P m` — from every state with `P`, the same answer
* `getElem?_set_cases` — what stands in a list of parties when one of them has taken a step
-/

namespace Refactor

variable {S α β ε : Type}

/-- Every run of `m` takes a state to one that `R` relates to it. -/
def Relates (R : S → S → Prop) (m : StateM S α) : Prop := ∀ s, R s (m.run s).2

namespace Relates

variable {R : S → S → Prop}

theorem pure [Std.Refl R] (a : α) : Relates R (Pure.pure a : StateM S α) := fun s => refl_of R s

theorem bind [IsTrans S R] {m : StateM S α} {f : α → StateM S β} (hm : Relates R m) (hf : ∀ a, Relates R (f a)) :
    Relates R (m >>= f) := fun s => trans_of R (hm s) (hf _ _)

theorem getBind {f : S → StateM S β} (hf : ∀ a, Relates R (f a)) : Relates R (get >>= f) := fun s => hf s s

variable [Std.Refl R]

theorem pureExcept (a : α) : Relates R (Pure.pure a : ExceptT ε (StateM S) α).run := Relates.pure _

theorem throwExcept (e : ε) : Relates R (throw e : ExceptT ε (StateM S) α).run := Relates.pure _

variable [IsTrans S R]

/-! ## Steps that may fail -/

theorem bindExcept {m : ExceptT ε (StateM S) α} {f : α → ExceptT ε (StateM S) β} (hm : Relates R m.run)
    (hf : ∀ a, Relates R (f a).run) : Relates R (m >>= f).run := by
  rw [ExceptT.run_bind]
  refine hm.bind fun r => ?_
  cases r with
  | ok a => exact hf a
  | error e => exact Relates.pure _

theorem lift {m : StateM S α} (hm : Relates R m) : Relates R (ExceptT.lift m : ExceptT ε (StateM S) α).run := by
  rw [ExceptT.run_lift, map_eq_pure_bind]
  exact hm.bind fun _ => Relates.pure _

/-! ## Loops -/

theorem forM {f : α → StateM S PUnit} (hf : ∀ a, Relates R (f a)) : ∀ l : List α, Relates R (l.forM f)
  | [] => Relates.pure _
  | a :: l => (hf a).bind fun _ => forM hf l

theorem filterAuxM {f : α → StateM S Bool} (hf : ∀ a, Relates R (f a)) :
    ∀ l acc : List α, Relates R (List.filterAuxM f l acc)
  | [], _ => Relates.pure _
  | a :: l, _ => (hf a).bind fun _ => filterAuxM hf l _

theorem filterM {f : α → StateM S Bool} (hf : ∀ a, Relates R (f a)) (l : List α) : Relates R (l.filterM f) :=
  (filterAuxM hf l []).bind fun _ => Relates.pure _

theorem forMExcept {f : α → ExceptT ε (StateM S) PUnit} :
    ∀ l : List α, (∀ a ∈ l, Relates R (f a).run) → Relates R (l.forM f).run
  | [], _ => pureExcept _
  | a :: l, hf =>
    (hf a (by simp)).bindExcept fun _ => forMExcept l fun b hb => hf b (List.mem_cons_of_mem a hb)

end Relates

/-! ## How a sequence ends -/

theorem run_bindExcept (m : ExceptT ε (StateM S) α) (f : α → ExceptT ε (StateM S) β) (s : S) :
    (m >>= f).run.run s = match m.run.run s with
      | (.ok a, s') => (f a).run.run s'
      | (.error e, s') => (.error e, s') := by
  rw [ExceptT.run_bind]
  show (m.run >>= _).run s = _
  rw [StateT.run_bind]
  rcases m.run.run s with ⟨_ | _, s'⟩ <;> rfl

theorem run_bind_ok {m : ExceptT ε (StateM S) α} {f : α → ExceptT ε (StateM S) β} {s s' : S} {b : β}
    (h : (m >>= f).run.run s = (.ok b, s')) :
    ∃ a s₁, m.run.run s = (.ok a, s₁) ∧ (f a).run.run s₁ = (.ok b, s') := by
  rw [run_bindExcept] at h
  rcases hm : m.run.run s with ⟨e | a, s₁⟩ <;> rw [hm] at h
  · cases h
  · exact ⟨a, s₁, rfl, h⟩

theorem run_tryCatch (m : ExceptT ε (StateM S) α) (f : ε → ExceptT ε (StateM S) α) (s : S) :
    (tryCatch m f).run.run s = match m.run.run s with
      | (.ok a, s') => (.ok a, s')
      | (.error e, s') => (f e).run.run s' := by
  rw [ExceptT.run_tryCatch, StateT.run_bind]
  show (match m.run.run s with | (r, s') => _) = _
  rcases m.run.run s with ⟨_ | _, s'⟩ <;> rfl

/-! ## What a run starts from and ends with -/

/-- An answer comes with `Q`, a failure with `E`. -/
def After (Q : α → S → Prop) (E : S → Prop) : Except ε α × S → Prop
  | (.ok a, s) => Q a s
  | (.error _, s) => E s

/-- From every state with `P`, an answer of `m` comes with `Q`, and a failure leaves `E`. -/
def Runs (P : S → Prop) (m : ExceptT ε (StateM S) α) (Q : α → S → Prop) (E : S → Prop) : Prop :=
  ∀ s, P s → After Q E (m.run.run s)

namespace Runs

variable {P P' E E' : S → Prop} {Q Q' : α → S → Prop}

theorem conseq {m : ExceptT ε (StateM S) α} (h : Runs P m Q E) (hP : ∀ s, P' s → P s) (hQ : ∀ a s, Q a s → Q' a s)
    (hE : ∀ s, E s → E' s) : Runs P' m Q' E' := by
  intro s hs
  have hrun := h s (hP s hs)
  generalize m.run.run s = out at hrun ⊢
  obtain ⟨e | a, s'⟩ := out
  · exact hE s' hrun
  · exact hQ a s' hrun

theorem and {m : ExceptT ε (StateM S) α} (h : Runs P m Q E) (h' : Runs P' m Q' E') :
    Runs (fun s => P s ∧ P' s) m (fun a s => Q a s ∧ Q' a s) (fun s => E s ∧ E' s) := by
  rintro s ⟨hs, hs'⟩
  have hrun := h s hs
  have hrun' := h' s hs'
  generalize m.run.run s = out at hrun hrun' ⊢
  obtain ⟨e | a, s'⟩ := out
  · exact ⟨hrun, hrun'⟩
  · exact ⟨hrun, hrun'⟩

theorem pure (a : α) (h : ∀ s, P s → Q a s) : Runs P (Pure.pure a : ExceptT ε (StateM S) α) Q E := fun s hs => h s hs

theorem throw (e : ε) (h : ∀ s, P s → E s) : Runs P (throw e : ExceptT ε (StateM S) α) Q E := fun s hs => h s hs

theorem bind {m : ExceptT ε (StateM S) α} {f : α → ExceptT ε (StateM S) β} {R : β → S → Prop} (hm : Runs P m Q E)
    (hf : ∀ a, Runs (Q a) (f a) R E) : Runs P (m >>= f) R E := by
  intro s hs
  have hrun := hm s hs
  rw [run_bindExcept]
  generalize m.run.run s = out at hrun ⊢
  obtain ⟨e | a, s'⟩ := out
  · exact hrun
  · exact hf a s' hrun

theorem const {c : Prop} (m : ExceptT ε (StateM S) α) : Runs (fun _ => c) m (fun _ _ => c) (fun _ => c) := by
  intro s hc
  generalize m.run.run s = out
  obtain ⟨_ | _, _⟩ := out
  · exact hc
  · exact hc

theorem of_relates {R : S → S → Prop} {m : ExceptT ε (StateM S) α} (h : Relates R m.run)
    (hP : ∀ s s', P s → R s s' → P s') : Runs P m (fun _ => P) P := by
  intro s hs
  have hrun := hP s _ hs (h s)
  show After _ _ (m.run.run s)
  change P (m.run.run s).2 at hrun
  generalize m.run.run s = out at hrun ⊢
  obtain ⟨_ | _, _⟩ := out
  · exact hrun
  · exact hrun

theorem throwBind (e : ε) {f : β → ExceptT ε (StateM S) α} (h : ∀ s, P s → E s) :
    Runs P (MonadExcept.throw e >>= f) Q E :=
  (Runs.throw (Q := fun _ _ => False) e h).bind fun _ _ hfalse => hfalse.elim

/-- A loop whose condition tells what is left to do. -/
theorem forM {f : α → ExceptT ε (StateM S) PUnit} {I : List α → S → Prop} : ∀ l₀ : List α,
    (∀ a l, a :: l <:+ l₀ → Runs (I (a :: l)) (f a) (fun _ => I l) E) → Runs (I l₀) (l₀.forM f) (fun _ => I []) E
  | [], _ => Runs.pure _ fun _ h => h
  | a :: l, hf => (hf a l List.suffix_rfl).bind fun _ =>
    Runs.forM l fun b rest hsuffix => hf b rest (hsuffix.trans (List.suffix_cons a l))

/-- A loop whose steps each make sure of something. -/
theorem forM_all {f : α → ExceptT ε (StateM S) PUnit} {C : α → Prop} : ∀ l : List α,
    (∀ a ∈ l, Runs P (f a) (fun _ s => P s ∧ C a) E) → Runs P (l.forM f) (fun _ s => P s ∧ ∀ a ∈ l, C a) E
  | [], _ => Runs.pure _ fun _ h => ⟨h, by simp⟩
  | a :: l, hf => by
    have ih := forM_all l fun b hb => hf b (List.mem_cons_of_mem a hb)
    refine (hf a (by simp)).bind fun _ => ?_
    by_cases ha : C a
    · refine ih.conseq (fun _ h => h.1) (fun _ s h => ⟨h.1, fun b hb => ?_⟩) fun _ h => h
      rcases List.mem_cons.mp hb with rfl | hb
      · exact ha
      · exact h.2 b hb
    · exact fun _ h => absurd h.2 ha

end Runs

/-- From every state with `P`, `m` answers and leaves what `Q` says. -/
def Ends (P : S → Prop) (m : StateM S α) (Q : α → S → Prop) : Prop := ∀ s, P s → Q (m.run s).1 (m.run s).2

namespace Ends

variable {P P' : S → Prop} {Q Q' : α → S → Prop}

theorem conseq {m : StateM S α} (h : Ends P m Q) (hP : ∀ s, P' s → P s) (hQ : ∀ a s, Q a s → Q' a s) : Ends P' m Q' :=
  fun s hs => hQ _ _ (h s (hP s hs))

theorem pure (a : α) (h : ∀ s, P s → Q a s) : Ends P (Pure.pure a : StateM S α) Q := fun s hs => h s hs

theorem bind {m : StateM S α} {f : α → StateM S β} {R : β → S → Prop} (hm : Ends P m Q)
    (hf : ∀ a, Ends (Q a) (f a) R) : Ends P (m >>= f) R := fun s hs => hf _ _ (hm s hs)

theorem getBind {f : S → StateM S β} {R : β → S → Prop} (hf : ∀ s, P s → Ends (· = s) (f s) R) :
    Ends P (get >>= f) R := fun s hs => hf s hs s rfl

theorem forM {f : α → StateM S PUnit} {I : List α → S → Prop} : ∀ l₀ : List α,
    (∀ a l, a :: l <:+ l₀ → Ends (I (a :: l)) (f a) (fun _ => I l)) → Ends (I l₀) (l₀.forM f) (fun _ => I [])
  | [], _ => Ends.pure _ fun _ h => h
  | a :: l, hf => (hf a l List.suffix_rfl).bind fun _ =>
    Ends.forM l fun b rest hsuffix => hf b rest (hsuffix.trans (List.suffix_cons a l))

theorem mapM {f : α → StateM S β} {C : α → β → Prop} (hf : ∀ a, Ends P (f a) (fun b s => P s ∧ C a b)) :
    ∀ l : List α, Ends P (l.mapM f) (fun bs s => P s ∧ ∀ b ∈ bs, ∃ a ∈ l, C a b)
  | [] => by
    rw [List.mapM_nil]
    exact Ends.pure _ fun _ h => ⟨h, by simp⟩
  | a :: l => by
    rw [List.mapM_cons]
    refine (hf a).bind fun b => ?_
    by_cases hb : C a b
    · refine ((mapM hf l).conseq (fun _ h => h.1) fun _ _ h => h).bind fun bs => Ends.pure _ fun _ h => ⟨h.1, ?_⟩
      intro c hc
      rcases List.mem_cons.mp hc with rfl | hc
      · exact ⟨a, by simp, hb⟩
      · obtain ⟨d, hd, hC⟩ := h.2 c hc
        exact ⟨d, List.mem_cons_of_mem a hd, hC⟩
    · exact fun _ h => absurd h.2 hb

theorem filterAuxM {f : α → StateM S Bool} {g : α → Bool} (hf : ∀ a, Ends P (f a) (fun b s => P s ∧ b = g a)) :
    ∀ l acc : List α, Ends P (List.filterAuxM f l acc) (fun l' s => P s ∧ l' = (l.filter g).reverse ++ acc)
  | [], acc => Ends.pure _ fun _ h => ⟨h, rfl⟩
  | a :: l, acc => by
    refine (hf a).bind fun b => ?_
    by_cases hb : b = g a
    · refine (filterAuxM hf l (cond b (a :: acc) acc)).conseq (fun _ h => h.1) fun l' _ h => ⟨h.1, ?_⟩
      rw [h.2, hb]
      cases hg : g a <;> simp [hg]
    · exact fun _ h => absurd h.2 hb

theorem filterM {f : α → StateM S Bool} {g : α → Bool} (hf : ∀ a, Ends P (f a) (fun b s => P s ∧ b = g a))
    (l : List α) : Ends P (l.filterM f) (fun l' s => P s ∧ l' = l.filter g) := by
  refine (filterAuxM hf l []).bind fun l' => Ends.pure _ fun _ h => ⟨h.1, ?_⟩
  simp [h.2]

end Ends

/-! ## Answers that do not depend on the state -/

/-- Every state with `P` gets the same answer of `m`, and `P` stays. -/
def Blind (P : S → Prop) (m : StateM S α) : Prop := ∃ a, Ends P m fun b s => b = a ∧ P s

namespace Blind

variable {P : S → Prop}

theorem pure (a : α) : Blind P (Pure.pure a : StateM S α) := ⟨a, Ends.pure a fun _ h => ⟨rfl, h⟩⟩

theorem modify {f : S → S} (h : ∀ s, P s → P (f s)) : Blind P (modify f : StateM S PUnit) :=
  ⟨.unit, fun s hs => ⟨rfl, h s hs⟩⟩

theorem bind {m : StateM S α} {f : α → StateM S β} (hm : Blind P m) (hf : ∀ a, Blind P (f a)) :
    Blind P (m >>= f) := by
  obtain ⟨a, ha⟩ := hm
  obtain ⟨b, hb⟩ := hf a
  refine ⟨b, ha.bind fun a' s hs => ?_⟩
  obtain ⟨rfl, hP⟩ := hs
  exact hb s hP

theorem mapM {f : α → StateM S β} : ∀ l : List α, (∀ a ∈ l, Blind P (f a)) → Blind P (l.mapM f)
  | [], _ => by
    rw [List.mapM_nil]
    exact Blind.pure []
  | a :: l, hf => by
    rw [List.mapM_cons]
    refine (hf a (by simp)).bind fun b => ?_
    refine (mapM l fun c hc => hf c (List.mem_cons_of_mem a hc)).bind fun bs => ?_
    exact Blind.pure (b :: bs)

theorem answer_eq {m : StateM S α} (h : Blind P m) {s s' : S} (hs : P s) (hs' : P s') : (m.run s).1 = (m.run s').1 := by
  obtain ⟨a, ha⟩ := h
  exact (ha s hs).1.trans (ha s' hs').1.symm

theorem stays {m : StateM S α} (h : Blind P m) {s : S} (hs : P s) : P (m.run s).2 := by
  obtain ⟨a, ha⟩ := h
  exact (ha s hs).2

theorem mapM_answers {f : α → StateM S β} : ∀ {l : List α} {s : S}, (∀ a ∈ l, Blind P (f a)) → P s →
    ((l.mapM f).run s).1 = l.map fun a => ((f a).run s).1
  | [], s, _, _ => by
    rw [List.mapM_nil]
    rfl
  | a :: l, s, hf, hs => by
    have hrest : ∀ b ∈ l, Blind P (f b) := fun b hb => hf b (List.mem_cons_of_mem a hb)
    have hfirst := (hf a (by simp)).stays hs
    have ih := mapM_answers hrest hfirst
    have hsame : (l.map fun b => ((f b).run ((f a).run s).2).1) = l.map fun b => ((f b).run s).1 :=
      List.map_congr_left fun b hb => (hrest b hb).answer_eq hfirst hs
    rw [List.mapM_cons, List.map_cons, ← hsame, ← ih]
    rfl

end Blind

/-! ## One party of many -/

theorem getElem?_set_cases {l : List α} {i j : Nat} {a b : α} (h : (l.set i a)[j]? = some b) :
    (j = i ∧ b = a) ∨ (j ≠ i ∧ l[j]? = some b) := by
  rw [List.getElem?_set] at h
  split at h
  · rename_i hij
    split at h
    · exact Or.inl ⟨hij.symm, (Option.some.inj h).symm⟩
    · cases h
  · rename_i hij
    exact Or.inr ⟨Ne.symm hij, h⟩

end Refactor
