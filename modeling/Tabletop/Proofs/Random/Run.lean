import Tabletop.Random.Source

/-!
# Runs

What a roll does from one source. A chain of rolls comes to a value just if every part of it does, and
it fails where its first part fails.
-/

namespace Tabletop.Random.Roll

variable {ε ε' α β : Type} {s s' : Source}

/-! ## One run -/

@[simp]
theorem run_pure (a : α) : (pure a : Roll ε α).run s = some (.ok a, s) := rfl

theorem run_bind (r : Roll ε α) (f : α → Roll ε β) :
    (r >>= f).run s =
      (r.run s).bind fun (result, s') =>
        match result with
        | .ok a => (f a).run s'
        | .error e => some (.error e, s') := by
  simp only [bind, ExceptT.bind, ExceptT.run, ExceptT.mk, StateT.bind]
  cases r s with
  | none => rfl
  | some p => cases p with | mk result s' => cases result <;> rfl

theorem run_bind_ok_iff {r : Roll ε α} {f : α → Roll ε β} {b : β} :
    (r >>= f).run s = some (.ok b, s') ↔
      ∃ a t, r.run s = some (.ok a, t) ∧ (f a).run t = some (.ok b, s') := by
  rw [run_bind]
  cases hr : r.run s with
  | none => simp
  | some p => cases p with | mk result t => cases result <;> simp [and_assoc]

theorem run_bind_congr {r : Roll ε α} {f g : α → Roll ε β}
    (h : ∀ a t, r.run s = some (.ok a, t) → (f a).run t = (g a).run t) :
    (r >>= f).run s = (r >>= g).run s := by
  rw [run_bind, run_bind]
  cases hr : r.run s with
  | none => rfl
  | some p =>
    cases p with
    | mk result t =>
      cases result with
      | error _ => rfl
      | ok a => exact h a t hr

theorem run_liftM (d : Draw α) :
    (liftM d : Roll ε α).run s = (d.run s).map fun (a, s') => (.ok a, s') := by
  simp only [liftM, monadLift, MonadLift.monadLift, ExceptT.lift, ExceptT.run, ExceptT.mk,
    Functor.map, StateT.map, StateT.run]
  cases d s <;> rfl

@[simp]
theorem mapError_ok (f : ε → ε') (a : α) : (Except.ok a).mapError f = .ok a := rfl

@[simp]
theorem mapError_error (f : ε → ε') (e : ε) : (.error e : Except ε α).mapError f = .error (f e) := rfl

theorem run_adapt (f : ε → ε') (r : Roll ε α) :
    (r.adapt f).run s = (r.run s).map fun (result, s') => (result.mapError f, s') := by
  change ((r.run s).bind fun p => some (p.1.mapError f, p.2)) = _
  cases r.run s <;> rfl

theorem run_adapt_ok_iff {f : ε → ε'} {r : Roll ε α} {a : α} :
    (r.adapt f).run s = some (.ok a, s') ↔ r.run s = some (.ok a, s') := by
  rw [run_adapt]
  cases hr : r.run s with
  | none => simp
  | some p => cases p with | mk result t => cases result <;> simp

theorem exists_run_of_map {r : Roll ε α} {f : α → β} {b : β}
    (h : ((r.run s).map fun p => p.1.toOption.map f) = some (some b)) :
    ∃ a s', r.run s = some (.ok a, s') ∧ f a = b := by
  obtain ⟨⟨result, s'⟩, hrun, hvalue⟩ := Option.map_eq_some_iff.mp h
  obtain ⟨a, ha, hb⟩ := Option.map_eq_some_iff.mp hvalue
  cases result with
  | error _ => cases ha
  | ok found =>
    cases ha
    exact ⟨a, s', hrun, hb⟩

/-- The roll comes to this value, from one source or another. -/
def Reaches (r : Roll ε α) (a : α) : Prop := ∃ s s', r.run s = some (.ok a, s')

/-- The roll, with the values it comes to marked as such. -/
def attached (r : Roll ε α) : Roll ε {a // r.Reaches a} := fun s =>
  match h : r.run s with
  | none => none
  | some (.error e, t) => some (.error e, t)
  | some (.ok a, t) => some (.ok ⟨a, s, t, h⟩, t)

theorem attached_bind (r : Roll ε α) (f : α → Roll ε β) : (r.attached >>= fun a => f a.1) = r >>= f := by
  funext s
  change (r.attached >>= fun a => f a.1).run s = (r >>= f).run s
  rw [run_bind, run_bind]
  have hattached : (r.attached.run s).map (fun p => (p.1.map Subtype.val, p.2)) = r.run s := by
    unfold attached ExceptT.run
    dsimp only
    split
    next h => exact h.symm
    next h => exact h.symm
    next h => exact h.symm
  rw [← hattached]
  cases r.attached.run s with
  | none => rfl
  | some p =>
    obtain ⟨result, t⟩ := p
    cases result <;> rfl

/-! ## Rolls that never fail -/

/-- Wherever the roll comes to an end, it does not fail, and its value is such. -/
def Yields (r : Roll ε α) (P : α → Prop) : Prop :=
  ∀ s result s', r.run s = some (result, s') → ∃ a, result = .ok a ∧ P a

variable {P : α → Prop} {Q : β → Prop}

theorem yields_pure {a : α} (h : P a) : (pure a : Roll ε α).Yields P := by
  intro s result s' hr
  rw [run_pure] at hr
  cases hr
  exact ⟨a, rfl, h⟩

theorem yields_bind {r : Roll ε α} {f : α → Roll ε β} (hr : r.Yields P)
    (hf : ∀ a, P a → (f a).Yields Q) : (r >>= f).Yields Q := by
  intro s result s' h
  rw [run_bind] at h
  obtain ⟨⟨first, t⟩, hfirst, h⟩ := Option.bind_eq_some_iff.mp h
  obtain ⟨a, rfl, ha⟩ := hr s first t hfirst
  exact hf a ha t result s' h

theorem yields_liftM (d : Draw α) : (liftM d : Roll ε α).Yields fun _ => True := by
  intro s result s' h
  rw [run_liftM] at h
  obtain ⟨⟨a, t⟩, -, h⟩ := Option.map_eq_some_iff.mp h
  cases h
  exact ⟨a, rfl, trivial⟩

theorem yields_adapt {f : ε → ε'} {r : Roll ε α} (hr : r.Yields P) : Yields (r.adapt f) P := by
  intro s result s' h
  rw [run_adapt] at h
  obtain ⟨⟨first, t⟩, hfirst, h⟩ := Option.map_eq_some_iff.mp h
  obtain ⟨a, rfl, ha⟩ := hr s first t hfirst
  cases h
  exact ⟨a, rfl, ha⟩

theorem run_bind_error_iff {r : Roll ε α} {f : α → Roll ε β} {e : ε}
    (hf : ∀ a, r.Reaches a → (f a).Yields fun _ => True) :
    (r >>= f).run s = some (.error e, s') ↔ r.run s = some (.error e, s') := by
  rw [run_bind]
  cases hr : r.run s with
  | none => simp
  | some p =>
    cases p with
    | mk result t =>
      cases result with
      | error _ => simp
      | ok a =>
        simp only [Option.bind_some, Option.some.injEq, Prod.mk.injEq, reduceCtorEq, false_and, iff_false]
        intro herror
        obtain ⟨_, herror, -⟩ := hf a ⟨s, t, hr⟩ t _ s' herror
        cases herror

/-! ## Rolls whose failure is settled beforehand -/

/-- Wherever the roll comes to an end, it fails with this fault, or not at all if there is none. -/
def HasFault (r : Roll ε α) (fault : Option ε) : Prop :=
  ∀ s result s', r.run s = some (result, s') →
    match result with
    | .ok _ => fault = none
    | .error e => fault = some e

theorem hasFault_pure (a : α) : (pure a : Roll ε α).HasFault none := by
  intro s result s' h
  cases h
  rfl

theorem hasFault_throw (e : ε) : (throw e : Roll ε α).HasFault (some e) := by
  intro s result s' h
  cases h
  rfl

theorem hasFault_liftM (d : Draw α) : (liftM d : Roll ε α).HasFault none := by
  intro s result s' h
  obtain ⟨a, rfl, -⟩ := yields_liftM d s result s' h
  rfl

theorem hasFault_bind {r : Roll ε α} {f : α → Roll ε β} {first second : Option ε}
    (hr : r.HasFault first) (hf : ∀ a, (f a).HasFault second) : (r >>= f).HasFault (first.or second) := by
  intro s result s' h
  rw [run_bind] at h
  obtain ⟨⟨early, t⟩, hearly, h⟩ := Option.bind_eq_some_iff.mp h
  have hfirst := hr s early t hearly
  cases early with
  | error e =>
    cases h
    rw [show first = some e from hfirst]
    rfl
  | ok a =>
    rw [show first = none from hfirst]
    exact hf a t result s' h

theorem hasFault_adapt {f : ε → ε'} {r : Roll ε α} {fault : Option ε} (hr : r.HasFault fault) :
    HasFault (r.adapt f) (fault.map f) := by
  intro s result s' h
  rw [run_adapt] at h
  obtain ⟨⟨first, t⟩, hfirst, h⟩ := Option.map_eq_some_iff.mp h
  have hfault := hr s first t hfirst
  cases first with
  | ok a =>
    cases h
    exact congrArg (Option.map f) (show fault = none from hfault)
  | error e =>
    cases h
    exact congrArg (Option.map f) (show fault = some e from hfault)

theorem HasFault.yields {r : Roll ε α} (hr : r.HasFault none)
    (hP : ∀ s a s', r.run s = some (.ok a, s') → P a) : r.Yields P := by
  intro s result s' h
  cases result with
  | ok a => exact ⟨a, rfl, hP s a s' h⟩
  | error e => cases hr s (.error e) s' h

end Tabletop.Random.Roll
