import Mathlib.Data.List.Forall2
import ApiGraph.Run

/-!
# Outcomes of computations

A computation on a state ends with a value or a fault, and in some state in either case.

* `outcome`, `after` — what a computation ends with, and the state it ends in;
* `bind_of_ok`, `bind_of_error`, `bind_eq_ok_iff` — how a sequence of two computations runs;
* `Delivers` — a computation ends with a value;
* `Leaves` — a computation leaves something of the state as it is;
* `Attempt.Fails` — which faults a value can end with, and the steps that keep to them.
-/

namespace ApiGraph

section

variable {σ α β : Type}

/-- The value or the fault that a computation ends with. -/
def outcome (m : EStateM Fault σ α) (s : σ) : Attempt α :=
  match m s with
  | .ok a _ => .ok a
  | .error fault _ => .error fault

/-- The state that a computation ends in, whether it succeeds or not. -/
def after (m : EStateM Fault σ α) (s : σ) : σ :=
  match m s with
  | .ok _ s' => s'
  | .error _ s' => s'

theorem eq_some_of_expect {a : Option α} {x : α} (h : expect a = .ok x) : a = some x := by
  cases a with
  | some y =>
    cases h
    rfl
  | none => cases h

theorem outcome_of_ok {m : EStateM Fault σ α} {s s' : σ} {a : α} (h : m s = .ok a s') :
    outcome m s = .ok a := by
  rw [outcome, h]

theorem after_of_ok {m : EStateM Fault σ α} {s s' : σ} {a : α} (h : m s = .ok a s') :
    after m s = s' := by
  rw [after, h]

theorem outcome_of_error {m : EStateM Fault σ α} {s s' : σ} {fault : Fault}
    (h : m s = .error fault s') : outcome m s = .error fault := by
  rw [outcome, h]

theorem after_of_error {m : EStateM Fault σ α} {s s' : σ} {fault : Fault}
    (h : m s = .error fault s') : after m s = s' := by
  rw [after, h]

/-- A computation is its outcome and the state after it. -/
theorem eq_ok_of_outcome {m : EStateM Fault σ α} {s : σ} {a : α} (h : outcome m s = .ok a) :
    m s = .ok a (after m s) := by
  rw [outcome] at h
  rw [after]
  cases hm : m s with
  | ok b s' => rw [hm] at h; cases h; rfl
  | error fault s' => rw [hm] at h; cases h

/-- What a computation gives may be found out by running it. -/
theorem eq_ok_of_toOption_outcome {m : EStateM Fault σ α} {s : σ} {a : α}
    (h : (outcome m s).toOption = some a) : m s = .ok a (after m s) := by
  refine eq_ok_of_outcome ?_
  cases houtcome : outcome m s with
  | ok b =>
    rw [houtcome] at h
    exact congrArg Except.ok (Option.some.inj h)
  | error fault =>
    rw [houtcome] at h
    cases h

/-- So may be found out what is read off the value that a computation gives. -/
theorem exists_eq_ok_of_map_outcome {m : EStateM Fault σ α} {s : σ} {f : α → β} {b : β}
    (h : (outcome m s).toOption.map f = some b) : ∃ a, m s = .ok a (after m s) ∧ f a = b := by
  obtain ⟨a, ha, hb⟩ := Option.map_eq_some_iff.1 h
  exact ⟨a, eq_ok_of_toOption_outcome ha, hb⟩

theorem eq_error_of_outcome {m : EStateM Fault σ α} {s : σ} {fault : Fault}
    (h : outcome m s = .error fault) : m s = .error fault (after m s) := by
  rw [outcome] at h
  rw [after]
  cases hm : m s with
  | ok b s' => rw [hm] at h; cases h
  | error other s' => rw [hm] at h; cases h; rfl

/-! ## Sequences -/

theorem bind_of_ok {m : EStateM Fault σ α} {f : α → EStateM Fault σ β} {s s' : σ} {a : α}
    (h : m s = .ok a s') : (m >>= f) s = f a s' := by
  show EStateM.bind m f s = _
  rw [EStateM.bind, h]

theorem bind_of_error {m : EStateM Fault σ α} {f : α → EStateM Fault σ β} {s s' : σ}
    {fault : Fault} (h : m s = .error fault s') : (m >>= f) s = .error fault s' := by
  show EStateM.bind m f s = _
  rw [EStateM.bind, h]

theorem outcome_bind_of_ok {m : EStateM Fault σ α} {f : α → EStateM Fault σ β} {s : σ} {a : α}
    (h : outcome m s = .ok a) : outcome (m >>= f) s = outcome (f a) (after m s) := by
  simp only [outcome, bind_of_ok (eq_ok_of_outcome h)]

theorem after_bind_of_ok {m : EStateM Fault σ α} {f : α → EStateM Fault σ β} {s : σ} {a : α}
    (h : outcome m s = .ok a) : after (m >>= f) s = after (f a) (after m s) := by
  simp only [after, bind_of_ok (eq_ok_of_outcome h)]

theorem outcome_bind_of_error {m : EStateM Fault σ α} {f : α → EStateM Fault σ β} {s : σ}
    {fault : Fault} (h : outcome m s = .error fault) : outcome (m >>= f) s = .error fault := by
  simp only [outcome, bind_of_error (eq_error_of_outcome h)]

theorem after_bind_of_error {m : EStateM Fault σ α} {f : α → EStateM Fault σ β} {s : σ}
    {fault : Fault} (h : outcome m s = .error fault) : after (m >>= f) s = after m s := by
  simp only [after, bind_of_error (eq_error_of_outcome h)]

/-- A sequence succeeds when both parts do, one from where the other ends. -/
theorem bind_eq_ok_iff {m : EStateM Fault σ α} {f : α → EStateM Fault σ β} {s s' : σ} {b : β} :
    (m >>= f) s = .ok b s' ↔ ∃ a s₁, m s = .ok a s₁ ∧ f a s₁ = .ok b s' := by
  cases hm : m s with
  | ok a s₁ =>
    rw [bind_of_ok hm]
    constructor
    · exact fun h => ⟨a, s₁, rfl, h⟩
    · rintro ⟨a', s', h, hf⟩
      cases h
      exact hf
  | error fault s₁ => simp [bind_of_error hm]

/-! ## Success -/

/-- A computation ends with a value. -/
def Delivers (m : EStateM Fault σ α) (s : σ) : Prop := ∃ a s', m s = .ok a s'

theorem delivers_of_ok {m : EStateM Fault σ α} {s s' : σ} {a : α} (h : m s = .ok a s') : Delivers m s :=
  ⟨a, s', h⟩

theorem Delivers.of_eq {m m' : EStateM Fault σ α} {s s' : σ} (h : Delivers m' s') (he : m s = m' s') :
    Delivers m s := by
  rwa [Delivers, he]

/-- Two computations, one after the other. -/
theorem Delivers.bind {m : EStateM Fault σ α} {f : α → EStateM Fault σ β} {s : σ} (hm : Delivers m s)
    (hf : ∀ a s', m s = .ok a s' → Delivers (f a) s') : Delivers (m >>= f) s := by
  obtain ⟨a, s', h⟩ := hm
  exact (hf a s' h).of_eq (bind_of_ok h)

end

/-! ## What is left as it is -/

section

variable {ε σ α β γ : Type} {f : σ → γ}

/-- The state that a computation has come to. -/
def stateOf : EStateM.Result ε σ α → σ
  | .ok _ s => s
  | .error _ s => s

/-- A computation leaves something of the state as it is, whether it succeeds or not. -/
def Leaves (f : σ → γ) (m : EStateM ε σ α) : Prop := ∀ s, f (stateOf (m s)) = f s

theorem leaves_iff {m : EStateM Fault σ α} : Leaves f m ↔ ∀ s, f (after m s) = f s := by
  refine forall_congr' fun s => ?_
  rw [after]
  cases m s <;> rfl

theorem leaves_pure (a : α) : Leaves f (pure a : EStateM ε σ α) := fun _ => rfl

theorem leaves_throw (e : ε) : Leaves f (throw e : EStateM ε σ α) := fun _ => rfl

theorem Leaves.bind {m : EStateM ε σ α} {k : α → EStateM ε σ β} (hm : Leaves f m)
    (hk : ∀ a, Leaves f (k a)) : Leaves f (m >>= k) := by
  intro s
  have hs := hm s
  show f (stateOf (EStateM.bind m k s)) = f s
  rw [EStateM.bind]
  cases hstep : m s with
  | error e s₁ =>
    rw [hstep] at hs
    exact hs
  | ok a s₁ =>
    rw [hstep] at hs
    exact (hk a s₁).trans hs

theorem leaves_get_bind {k : σ → EStateM ε σ α} (hk : ∀ s, Leaves f (k s)) : Leaves f (get >>= k) :=
  fun s => hk s s

theorem leaves_mapM {k : α → EStateM ε σ β} (hk : ∀ a, Leaves f (k a)) (xs : List α) :
    Leaves f (xs.mapM k) := by
  induction xs with
  | nil => exact leaves_pure _
  | cons x xs ih =>
    rw [List.mapM_cons]
    exact (hk x).bind fun _ => ih.bind fun _ => leaves_pure _

end

/-- A list that stands beside another one has a partner for each of its members. -/
theorem exists_of_forall₂_left {α β : Type} {R : α → β → Prop} {xs : List α} {ys : List β}
    (h : List.Forall₂ R xs ys) {a : α} (ha : a ∈ xs) : ∃ b ∈ ys, R a b := by
  induction h with
  | nil => cases ha
  | cons hab _ ih =>
    obtain rfl | ha := List.mem_cons.1 ha
    · exact ⟨_, List.mem_cons_self, hab⟩
    · obtain ⟨b, hb, hrel⟩ := ih ha
      exact ⟨b, List.mem_cons_of_mem _ hb, hrel⟩

/-- Things of which each has a counterpart, beside their counterparts. -/
theorem exists_forall₂ {α β : Type} {R : α → β → Prop} {xs : List α} (h : ∀ x ∈ xs, ∃ y, R x y) :
    ∃ ys, List.Forall₂ R xs ys := by
  induction xs with
  | nil => exact ⟨[], .nil⟩
  | cons x rest ih =>
    obtain ⟨hx, hrest⟩ := List.forall_mem_cons.1 h
    obtain ⟨y, hy⟩ := hx
    obtain ⟨ys, hys⟩ := ih hrest
    exact ⟨y :: ys, .cons hy hys⟩

/-! ## Faults of values -/

namespace Attempt

variable {α β : Type} {P : Fault → Prop}

/-- A value ends with a fault only if the fault is of a kind. -/
def Fails (P : Fault → Prop) (a : Attempt α) : Prop := ∀ fault, a = .error fault → P fault

@[simp] theorem fails_ok (a : α) : Fails P (.ok a) := by
  intro fault h
  cases h

@[simp] theorem fails_pure (a : α) : Fails P (pure a : Attempt α) := fails_ok a

@[simp] theorem fails_error_iff {fault : Fault} : Fails P (.error fault : Attempt α) ↔ P fault := by
  constructor
  · exact fun h => h fault rfl
  · intro h other he
    cases he
    exact h

theorem Fails.mono {Q : Fault → Prop} {a : Attempt α} (h : Fails P a) (hPQ : ∀ f, P f → Q f) :
    Fails Q a :=
  fun fault he => hPQ fault (h fault he)

theorem Fails.bind {a : Attempt α} {f : α → Attempt β} (ha : Fails P a)
    (hf : ∀ x, Fails P (f x)) : Fails P (a >>= f) := by
  cases a with
  | ok x => exact hf x
  | error fault => exact fails_error_iff.2 (ha fault rfl)

theorem Fails.map {a : Attempt α} {f : α → β} (ha : Fails P a) : Fails P (a.map f) := by
  cases a with
  | ok x => exact fails_ok _
  | error fault => exact fails_error_iff.2 (ha fault rfl)

theorem Fails.mapM {f : α → Attempt β} (hf : ∀ x, Fails P (f x)) (xs : List α) :
    Fails P (xs.mapM f) := by
  induction xs with
  | nil => exact fails_ok _
  | cons x xs ih =>
    rw [List.mapM_cons]
    exact (hf x).bind fun _ => ih.bind fun _ => fails_pure _

theorem eq_ok_of_toOption {a : Attempt α} {x : α} (h : a.toOption = some x) : a = .ok x := by
  cases a with
  | ok y => exact congrArg Except.ok (Option.some.inj h)
  | error fault => cases h

theorem exists_bind_pure_eq_ok {a : Attempt α} (h : ∃ x, a = .ok x) (f : α → β) :
    ∃ y, (a >>= fun x => pure (f x)) = .ok y := by
  obtain ⟨x, rfl⟩ := h
  exact ⟨f x, rfl⟩

/-- When all elements succeed, the list does. -/
theorem exists_mapM_eq_ok {f : α → Attempt β} {xs : List α} (h : ∀ x ∈ xs, ∃ y, f x = .ok y) :
    ∃ ys, xs.mapM f = .ok ys := by
  induction xs with
  | nil => exact ⟨[], rfl⟩
  | cons x xs ih =>
    obtain ⟨hx, hxs⟩ := List.forall_mem_cons.1 h
    obtain ⟨y, hy⟩ := hx
    obtain ⟨ys, hys⟩ := ih hxs
    refine ⟨y :: ys, ?_⟩
    rw [List.mapM_cons, hy, hys]
    rfl

theorem bind_eq_ok_iff {a : Attempt α} {f : α → Attempt β} {y : β} :
    (a >>= f) = .ok y ↔ ∃ x, a = .ok x ∧ f x = .ok y := by
  cases a with
  | ok x => exact ⟨fun h => ⟨x, rfl, h⟩, fun ⟨_, hx, h⟩ => Except.ok.inj hx ▸ h⟩
  | error fault => exact ⟨nofun, nofun⟩

/-- When a list succeeds, its elements do. -/
theorem forall₂_of_mapM_eq_ok {f : α → Attempt β} {xs : List α} {ys : List β} (h : xs.mapM f = .ok ys) :
    List.Forall₂ (fun x y => f x = .ok y) xs ys := by
  induction xs generalizing ys with
  | nil =>
    cases h
    exact .nil
  | cons x xs ih =>
    rw [List.mapM_cons] at h
    obtain ⟨y, hy, h⟩ := bind_eq_ok_iff.1 h
    obtain ⟨rest, hrest, h⟩ := bind_eq_ok_iff.1 h
    cases h
    exact .cons hy (ih hrest)

theorem fails_expect (h : P .malformed) (a : Option α) : Fails P (expect a) := by
  cases a with
  | none => exact fails_error_iff.2 h
  | some x => exact fails_ok x

end Attempt

end ApiGraph
