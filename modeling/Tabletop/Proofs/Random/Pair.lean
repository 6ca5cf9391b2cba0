import Tabletop.Proofs.Random.Run

/-!
# Pairs of runs

Two rolls side by side, from any two sources or from one. Their values are compared through a function,
which leaves out what may differ.
-/

namespace Tabletop.Random.Roll

variable {ε ε' α β γ δ : Type} {f : α → γ} {g : β → δ} {r r' : Roll ε α} {k k' : α → Roll ε β}

/-! ## From any two sources -/

/-- Wherever both rolls come to an end, they fail alike, or their values are the same under `f`. -/
def Alike (f : α → γ) (r r' : Roll ε α) : Prop :=
  ∀ s result s' t result' t', r.run s = some (result, s') → r'.run t = some (result', t') →
    result.map f = result'.map f

theorem alike_pure {a b : α} (h : f a = f b) : Alike f (pure a : Roll ε α) (pure b) := by
  intro s result s' t result' t' hrun hrun'
  rw [run_pure] at hrun hrun'
  cases hrun
  cases hrun'
  exact congrArg Except.ok h

theorem alike_of_run {result : Except ε α} (h : ∀ s, r.run s = some (result, s)) : Alike f r r := by
  intro s first s' t second t' hrun hrun'
  rw [h] at hrun hrun'
  cases hrun
  cases hrun'
  rfl

theorem alike_throw (e : ε) : Alike f (throw e : Roll ε α) (throw e) := alike_of_run fun _ => rfl

theorem HasFault.alike {fault : Option ε} (h : r.HasFault fault) (hf : ∀ a b, f a = f b) :
    Alike f r r := by
  intro s result s' t result' t' hrun hrun'
  have hfirst := h s result s' hrun
  have hsecond := h t result' t' hrun'
  cases result with
  | ok a =>
    rw [show fault = none from hfirst] at hsecond
    cases result' with
    | ok b => exact congrArg Except.ok (hf a b)
    | error e => cases hsecond
  | error e =>
    rw [show fault = some e from hfirst] at hsecond
    cases result' with
    | ok b => cases hsecond
    | error e' =>
      cases hsecond
      rfl

theorem alike_bind (hr : Alike f r r') (hk : ∀ a b, r.Reaches a → f a = f b → Alike g (k a) (k' b)) :
    Alike g (r >>= k) (r' >>= k') := by
  intro s result s' t result' t' hrun hrun'
  rw [run_bind] at hrun hrun'
  obtain ⟨⟨first, u⟩, hfirst, hrun⟩ := Option.bind_eq_some_iff.mp hrun
  obtain ⟨⟨first', u'⟩, hfirst', hrun'⟩ := Option.bind_eq_some_iff.mp hrun'
  have hsame := hr s first u t first' u' hfirst hfirst'
  cases first with
  | error e =>
    cases first' with
    | ok b => cases hsame
    | error e' =>
      cases hsame
      cases hrun
      cases hrun'
      rfl
  | ok a =>
    cases first' with
    | error e' => cases hsame
    | ok b => exact hk a b ⟨s, u, hfirst⟩ (Except.ok.inj hsame) u result s' u' result' t' hrun hrun'

theorem map_mapError (wrap : ε → ε') (f : α → γ) (result : Except ε α) :
    (result.mapError wrap).map f = (result.map f).mapError wrap := by
  cases result <;> rfl

theorem alike_adapt {wrap : ε → ε'} (hr : Alike f r r') :
    Alike f (r.adapt wrap : Roll ε' α) (r'.adapt wrap) := by
  intro s result s' t result' t' hrun hrun'
  rw [run_adapt] at hrun hrun'
  obtain ⟨⟨first, u⟩, hfirst, hrun⟩ := Option.map_eq_some_iff.mp hrun
  obtain ⟨⟨first', u'⟩, hfirst', hrun'⟩ := Option.map_eq_some_iff.mp hrun'
  cases hrun
  cases hrun'
  rw [map_mapError, map_mapError, hr _ _ _ _ _ _ hfirst hfirst']

/-! ## From one source -/

/--
From every source both rolls draw the same words, fail alike, or come to values that are the same under
`f`. One of them comes to no end just if the other does not.
-/
def InStep (f : α → γ) (r r' : Roll ε α) : Prop :=
  ∀ s, (r.run s).map (fun (result, s') => (result.map f, s')) =
    (r'.run s).map fun (result, s') => (result.map f, s')

theorem inStep_refl (f : α → γ) (r : Roll ε α) : InStep f r r := fun _ => rfl

theorem inStep_pure {a b : α} (h : f a = f b) : InStep f (pure a : Roll ε α) (pure b) := by
  intro s
  rw [run_pure, run_pure, Option.map_some, Option.map_some]
  exact congrArg (fun c => some (Except.ok c, s)) h

theorem inStep_bind (hr : InStep f r r') (hk : ∀ a b, f a = f b → InStep g (k a) (k' b)) :
    InStep g (r >>= k) (r' >>= k') := by
  intro s
  have hs := hr s
  rw [run_bind, run_bind]
  cases hrun : r.run s with
  | none =>
    rw [hrun] at hs
    rw [Option.map_eq_none_iff.mp hs.symm]
    rfl
  | some p =>
    obtain ⟨result, t⟩ := p
    rw [hrun, Option.map_some] at hs
    obtain ⟨⟨result', t'⟩, hrun', hsame⟩ := Option.map_eq_some_iff.mp hs.symm
    obtain ⟨hvalue, rfl⟩ := Prod.mk.inj hsame
    rw [hrun', Option.bind_some, Option.bind_some]
    cases result with
    | error e =>
      cases result' with
      | ok b => cases hvalue
      | error e' =>
        cases hvalue
        rfl
    | ok a =>
      cases result' with
      | error e' => cases hvalue
      | ok b => exact hk a b (Except.ok.inj hvalue).symm t'

theorem inStep_bind_left (r : Roll ε α) (hk : ∀ a, InStep g (k a) (k' a)) :
    InStep g (r >>= k) (r >>= k') := by
  refine inStep_bind (inStep_refl id r) fun a b hab => ?_
  rw [show a = b from hab]
  exact hk b

end Tabletop.Random.Roll
