import Mathlib.Data.List.Forall2
import Refactor.Planning.Basic
import Refactor.Proofs.Steps

/-!
# What planning yields

Steps of planning look at a fixed planner; when they do not fail, what they answer is known.

* `Planning.Yields` — every answer has a property
* `Yields.bind`, `Yields.forM`, `Yields.mapM`, `Yields.foldlM` — sequences and loops
* `Yields.search`, `Yields.ensureInRoot`, `Yields.findReferences` — steps
* `Planning.Fails` — every failure has a property
* `Planning.Answers`, `Planning.Still` — steps whose answer depends on the planner alone
-/

namespace Refactor.Planning

variable {α β : Type} {env : Planner}

theorem exists_of_forall₂ {R : α → β → Prop} {l : List α} {l' : List β} (h : List.Forall₂ R l l') :
    ∀ b ∈ l', ∃ a ∈ l, R a b := by
  induction h with
  | nil => simp
  | cons hab _ ih =>
    refine List.forall_mem_cons.mpr ⟨⟨_, by simp, hab⟩, fun b hb => ?_⟩
    obtain ⟨a, ha, hR⟩ := ih b hb
    exact ⟨a, List.mem_cons_of_mem _ ha, hR⟩

/-- Whatever is cached and was asked before, an answer has `Q`. -/
def Yields (env : Planner) (m : Planning α) (Q : α → Prop) : Prop :=
  ∀ s a s', (m.run env).run.run s = (.ok a, s') → Q a

namespace Yields

variable {Q Q' : α → Prop}

theorem mono {m : Planning α} (h : Yields env m Q) (hQ : ∀ a, Q a → Q' a) : Yields env m Q' :=
  fun s a s' hrun => hQ a (h s a s' hrun)

theorem and {m : Planning α} (h : Yields env m Q) (h' : Yields env m Q') : Yields env m fun a => Q a ∧ Q' a :=
  fun s a s' hrun => ⟨h s a s' hrun, h' s a s' hrun⟩

theorem any (m : Planning α) : Yields env m fun _ => True := fun _ _ _ _ => trivial

theorem pure {a : α} (h : Q a) : Yields env (Pure.pure a) Q := by
  intro s b s' hrun
  cases hrun
  exact h

theorem throw (e : Error) : Yields env (throw e : Planning α) Q := fun _ _ _ hrun => by cases hrun

theorem bind {m : Planning α} {f : α → Planning β} {R : β → Prop} (hm : Yields env m Q)
    (hf : ∀ a, Q a → Yields env (f a) R) : Yields env (m >>= f) R := by
  intro s b s' hrun
  rw [ReaderT.run_bind] at hrun
  obtain ⟨a, s₁, ha, hb⟩ := run_bind_ok hrun
  exact hf a (hm s a s₁ ha) s₁ b s' hb

theorem inl {m : Planning α} (h : Yields env m Q) :
    Yields env (Sum.inl (β := β) <$> m) fun o => ∀ a, o = .inl a → Q a := by
  rw [map_eq_pure_bind]
  refine h.bind fun a ha => pure fun a' heq => ?_
  cases heq
  exact ha

theorem throwBind (e : Error) {f : β → Planning α} : Yields env (MonadExcept.throw e >>= f) Q :=
  bind (throw e : Yields env _ fun _ => False) fun _ h => h.elim

/-! ## Refusals -/

theorem unlessThrow {c : Prop} [Decidable c] {e : Error} {f : PUnit → Planning α} (h : ¬c → Yields env (f ⟨⟩) Q) :
    Yields env (if c then MonadExcept.throw e >>= f else f ⟨⟩) Q := by
  split
  · exact throwBind e
  · exact h ‹_›

theorem whenThrow {c : Prop} [Decidable c] {e : Error} {f : PUnit → Planning α} (h : c → Yields env (f ⟨⟩) Q) :
    Yields env (if c then f ⟨⟩ else MonadExcept.throw e >>= f) Q := by
  split
  · exact h ‹_›
  · exact throwBind e

/-- A refusal whose message looks something up. -/
theorem unlessThrowOf {c : Prop} [Decidable c] {m : Planning β} {e : β → Error} {f : PUnit → Planning α}
    (h : ¬c → Yields env (f ⟨⟩) Q) :
    Yields env (if c then m >>= fun b => MonadExcept.throw (e b) >>= f else f ⟨⟩) Q := by
  split
  · exact (any m).bind fun b _ => throwBind (e b)
  · exact h ‹_›

/-! ## Steps -/

/-- What the answer of the first step is does not matter. -/
theorem andThen {m : Planning α} {f : α → Planning β} {R : β → Prop} (hf : ∀ a, Yields env (f a) R) :
    Yields env (m >>= f) R :=
  bind (any m) fun a _ => hf a

theorem readBind {f : Planner → Planning α} (h : Yields env (f env) Q) : Yields env (read >>= f) Q := by
  intro s a s' hrun
  exact h s a s' hrun

theorem ofExcept {x : Except Error α} (h : ∀ a, x = .ok a → Q a) : Yields env (Planning.ofExcept x) Q := by
  cases x with
  | ok a => exact pure (h a rfl)
  | error e => exact throw e

theorem search {f : References → Tree → Searching α} (h : ∀ s, Q ((f env.references env.tree).run s).1) :
    Yields env (Planning.search f) Q := by
  intro s a s' hrun
  cases hrun
  exact h s.cache

theorem exists? (p : Path) : Yields env (Planning.exists? p) (· = env.tree.exists? p) := by
  intro s a s' hrun
  cases hrun
  rfl

theorem isDir (p : Path) : Yields env (Planning.isDir p) (· = env.tree.isDir p) := by
  intro s a s' hrun
  cases hrun
  rfl

theorem ensureInRoot (p : Path) : Yields env (Planning.ensureInRoot p) fun _ => p.startsWith env.root = true := by
  unfold Planning.ensureInRoot
  refine readBind ?_
  dsimp only
  split
  · rename_i h
    exact pure h
  · exact throw _

theorem findReferences (file : Path) (position : Position) : Yields env (Planning.findReferences file position) fun ls =>
    env.intelligence.references file position = .ok ls := by
  unfold Planning.findReferences
  exact andThen fun _ => readBind <| ofExcept fun ls hls => hls

/-! ## Loops -/

theorem forM {f : α → Planning PUnit} {C : α → Prop} : ∀ {l : List α},
    (∀ a ∈ l, Yields env (f a) fun _ => C a) → Yields env (l.forM f) fun _ => ∀ a ∈ l, C a
  | [], _ => pure (by simp)
  | a :: l, hf => by
    refine (hf a (by simp)).bind fun _ ha => (forM fun b hb => hf b (List.mem_cons_of_mem a hb)).mono fun _ hl => ?_
    intro b hb
    rcases List.mem_cons.mp hb with rfl | hb
    · exact ha
    · exact hl b hb

theorem mapM {f : α → Planning β} {C : α → β → Prop} : ∀ {l : List α},
    (∀ a ∈ l, Yields env (f a) (C a)) → Yields env (l.mapM f) (List.Forall₂ C l)
  | [], _ => by
    rw [List.mapM_nil]
    exact pure .nil
  | a :: l, hf => by
    rw [List.mapM_cons]
    refine (hf a (by simp)).bind fun b hb => ?_
    exact (mapM fun c hc => hf c (List.mem_cons_of_mem a hc)).bind fun bs hbs => pure (.cons hb hbs)

theorem mapM_all {f : α → Planning β} {C : β → Prop} {l : List α} (hf : ∀ a ∈ l, Yields env (f a) C) :
    Yields env (l.mapM f) fun bs => ∀ b ∈ bs, C b :=
  (mapM hf).mono fun _ hbs b hb => (exists_of_forall₂ hbs b hb).elim fun _ h => h.2

theorem foldlM {f : β → α → Planning β} {I : β → Prop} : ∀ {l : List α} {b : β},
    (∀ b, ∀ a ∈ l, I b → Yields env (f b a) I) → I b → Yields env (l.foldlM f b) I
  | [], _, _, hb => pure hb
  | a :: l, b, hf, hb => by
    rw [List.foldlM_cons]
    exact (hf b a (by simp) hb).bind fun c hc => foldlM (fun d x hx => hf d x (List.mem_cons_of_mem a hx)) hc

/-- A loop whose condition tells what is done. -/
theorem foldlM_done {f : β → α → Planning β} {I : List α → β → Prop} : ∀ {l done : List α} {b : β},
    (∀ done b, ∀ a ∈ l, I done b → Yields env (f b a) (I (done ++ [a]))) → I done b →
    Yields env (l.foldlM f b) (I (done ++ l))
  | [], done, _, _, hb => pure (by rwa [List.append_nil])
  | a :: l, done, b, hf, hb => by
    rw [List.foldlM_cons]
    refine (hf done b a (by simp) hb).bind fun c hc => ?_
    have hrest := foldlM_done (fun done d x hx => hf done d x (List.mem_cons_of_mem a hx)) hc
    rwa [List.append_assoc] at hrest

end Yields

/-! ## Failures -/

/-- Whatever is cached and was asked before, a failure has `E`. -/
def Fails (env : Planner) (m : Planning α) (E : Error → Prop) : Prop :=
  ∀ s e s', (m.run env).run.run s = (.error e, s') → E e

namespace Fails

variable {E : Error → Prop} {Q : α → Prop}

theorem pure (a : α) : Fails env (Pure.pure a) E := fun _ _ _ hrun => by cases hrun

theorem throw {e : Error} (h : E e) : Fails env (MonadExcept.throw e : Planning α) E := by
  intro s e' s' hrun
  cases hrun
  exact h

theorem bind {m : Planning α} {f : α → Planning β} (hm : Fails env m E) (hq : Yields env m Q)
    (hf : ∀ a, Q a → Fails env (f a) E) : Fails env (m >>= f) E := by
  intro s e s' hrun
  rw [ReaderT.run_bind, run_bindExcept] at hrun
  rcases hfirst : (m.run env).run.run s with ⟨e₁ | a, s₁⟩ <;> rw [hfirst] at hrun
  · cases hrun
    exact hm s e s' hfirst
  · exact hf a (hq s a s₁ hfirst) s₁ e s' hrun

theorem throwBind {e : Error} (h : E e) {f : β → Planning α} : Fails env (MonadExcept.throw e >>= f) E :=
  bind (throw h) (Yields.throw e : Yields env _ fun _ => False) fun _ hnone => hnone.elim

theorem readBind {f : Planner → Planning α} (h : Fails env (f env) E) : Fails env (read >>= f) E := by
  intro s e s' hrun
  exact h s e s' hrun

theorem ofExcept {x : Except Error α} (h : ∀ e, x = .error e → E e) : Fails env (Planning.ofExcept x) E := by
  cases x with
  | ok a => exact pure a
  | error e => exact throw (h e rfl)

theorem forM {f : α → Planning PUnit} : ∀ {l : List α}, (∀ a ∈ l, Fails env (f a) E) → Fails env (l.forM f) E
  | [], _ => pure _
  | a :: _, hf => (hf a (by simp)).bind (Yields.any _) fun _ _ => forM fun b hb => hf b (List.mem_cons_of_mem a hb)

theorem foldlM {f : β → α → Planning β} : ∀ {l : List α} {b : β}, (∀ b, ∀ a ∈ l, Fails env (f b a) E) →
    Fails env (l.foldlM f b) E
  | [], b, _ => pure b
  | a :: l, b, hf => by
    rw [List.foldlM_cons]
    exact (hf b a (by simp)).bind (Yields.any _) fun c _ => foldlM fun d x hx => hf d x (List.mem_cons_of_mem a hx)

end Fails

/-! ## Sequences -/

theorem run_bind_of_ok {m : Planning α} {f : α → Planning β} {s s' : PlanningState} {a : α}
    (h : (m.run env).run.run s = (.ok a, s')) : ((m >>= f).run env).run.run s = ((f a).run env).run.run s' := by
  rw [ReaderT.run_bind, run_bindExcept, h]

theorem run_bind_inv {m : Planning α} {f : α → Planning β} {s s' : PlanningState} {b : β}
    (h : ((m >>= f).run env).run.run s = (.ok b, s')) :
    ∃ a s₁, (m.run env).run.run s = (.ok a, s₁) ∧ ((f a).run env).run.run s₁ = (.ok b, s') := by
  rw [ReaderT.run_bind] at h
  exact run_bind_ok h

/-! ## Steps that only look -/

/-- Whatever is cached and was asked before, the answer is `r`, and no more is cached and asked. -/
def Answers (env : Planner) (m : Planning α) (r : Except Error α) : Prop := ∀ s, (m.run env).run.run s = (r, s)

/-- A step with one answer. -/
def Still (env : Planner) (m : Planning α) : Prop := ∃ r, Answers env m r

theorem Answers.of_yields {m : Planning α} {a : α} {Q : α → Prop} (h : Answers env m (.ok a)) (hm : Yields env m Q) :
    Q a := hm {} a {} (h {})

theorem Still.answers {m : Planning α} (h : Still env m) {s s' : PlanningState} {a : α}
    (hrun : (m.run env).run.run s = (.ok a, s')) : Answers env m (.ok a) ∧ s' = s := by
  obtain ⟨r, hr⟩ := h
  have heq : (r, s) = (.ok a, s') := (hr s).symm.trans hrun
  cases heq
  exact ⟨hr, rfl⟩

namespace Still

theorem pure (a : α) : Still env (Pure.pure a) := ⟨.ok a, fun _ => rfl⟩

theorem throw (e : Error) : Still env (MonadExcept.throw e : Planning α) := ⟨.error e, fun _ => rfl⟩

theorem ofExcept (x : Except Error α) : Still env (Planning.ofExcept x) := by
  cases x with
  | ok a => exact pure a
  | error e => exact throw e

theorem bind {m : Planning α} {f : α → Planning β} (hm : Still env m) (hf : ∀ a, Still env (f a)) :
    Still env (m >>= f) := by
  obtain ⟨r, hr⟩ := hm
  cases r with
  | ok a =>
    obtain ⟨r', hr'⟩ := hf a
    refine ⟨r', fun s => ?_⟩
    rw [run_bind_of_ok (hr s), hr' s]
  | error e =>
    refine ⟨.error e, fun s => ?_⟩
    rw [ReaderT.run_bind, run_bindExcept, hr s]

theorem readBind {f : Planner → Planning α} (h : Still env (f env)) : Still env (read >>= f) := by
  obtain ⟨r, hr⟩ := h
  exact ⟨r, hr⟩

theorem throwBind (e : Error) (f : β → Planning α) : Still env (MonadExcept.throw e >>= f) := ⟨.error e, fun _ => rfl⟩

theorem unlessThrow {c : Prop} [Decidable c] {e : Error} {f : PUnit → Planning α} (h : Still env (f ⟨⟩)) :
    Still env (if c then MonadExcept.throw e >>= f else f ⟨⟩) := by
  split
  · exact throwBind e f
  · exact h

theorem whenThrow {c : Prop} [Decidable c] {e : Error} {f : PUnit → Planning α} (h : Still env (f ⟨⟩)) :
    Still env (if c then f ⟨⟩ else MonadExcept.throw e >>= f) := by
  split
  · exact h
  · exact throwBind e f

theorem unlessThrowOf {c : Prop} [Decidable c] {m : Planning β} (hm : Still env m) {e : β → Error}
    {f : PUnit → Planning α} (h : Still env (f ⟨⟩)) :
    Still env (if c then m >>= fun b => MonadExcept.throw (e b) >>= f else f ⟨⟩) := by
  split
  · exact hm.bind fun b => throwBind (e b) f
  · exact h

theorem exists? (p : Path) : Still env (Planning.exists? p) := ⟨.ok (env.tree.exists? p), fun _ => rfl⟩

theorem isDir (p : Path) : Still env (Planning.isDir p) := ⟨.ok (env.tree.isDir p), fun _ => rfl⟩

theorem shown (p : Path) : Still env (Planning.shown p) := ⟨.ok (p.displayIn env.root), fun _ => rfl⟩

theorem ensureInRoot (p : Path) : Still env (Planning.ensureInRoot p) := by
  refine readBind ?_
  dsimp only
  split
  · exact pure _
  · exact throw _

theorem forM {f : α → Planning PUnit} : ∀ {l : List α}, (∀ a ∈ l, Still env (f a)) → Still env (l.forM f)
  | [], _ => pure _
  | a :: _, hf => (hf a (by simp)).bind fun _ => forM fun b hb => hf b (List.mem_cons_of_mem a hb)

/-- The answers of a loop whose steps have one answer each. -/
theorem mapM_ok {f : α → Planning β} (hf : ∀ a, Still env (f a)) : ∀ {l : List α} {bs : List β} {s s' : PlanningState},
    ((l.mapM f).run env).run.run s = (.ok bs, s') → List.Forall₂ (fun a b => Answers env (f a) (.ok b)) l bs ∧ s' = s
  | [], bs, s, s', h => by
    rw [List.mapM_nil] at h
    cases h
    exact ⟨.nil, rfl⟩
  | a :: l, bs, s, s', h => by
    rw [List.mapM_cons] at h
    obtain ⟨b, s₁, hb, hlater⟩ := run_bind_inv h
    obtain ⟨hanswers, rfl⟩ := (hf a).answers hb
    obtain ⟨rest, s₂, hrest, hend⟩ := run_bind_inv hlater
    obtain ⟨ih, rfl⟩ := mapM_ok hf hrest
    cases hend
    exact ⟨.cons hanswers ih, rfl⟩

end Still

theorem Answers.mapM {f : α → Planning β} {l : List α} {bs : List β}
    (h : List.Forall₂ (fun a b => Answers env (f a) (.ok b)) l bs) : Answers env (l.mapM f) (.ok bs) := by
  induction h with
  | nil =>
    intro s
    rw [List.mapM_nil]
    rfl
  | cons hb _ ih =>
    intro s
    rw [List.mapM_cons, run_bind_of_ok (hb s), run_bind_of_ok (ih s)]
    rfl

end Refactor.Planning
