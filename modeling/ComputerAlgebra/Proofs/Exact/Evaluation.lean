import ComputerAlgebra.Numeric.Evaluation
import ComputerAlgebra.Proofs.Exact.Value
import ComputerAlgebra.Proofs.Expr.Operands
import ComputerAlgebra.Proofs.Numeric.Evaluation

/-!
# Evaluation in exact arithmetic

If every variable of an expression is bound to the number that an assignment gives it, the evaluator
finds the value of the expression under the assignment, wherever there is one
(`Exact.Binds.agrees`).
-/

namespace ComputerAlgebra

namespace Exact

open ComputerAlgebra.Expr ExactNumbers

variable {K : Type} [Field K] [LinearOrder K] [ExactNumbers K] {bs : Bindings (Option K)}
  {ρ : String → K} {a b e : Expr} {es : List Expr} {vs : List K}

/-- Each variable of an expression is bound to what an assignment gives it. -/
def Binds (bs : Bindings (Option K)) (ρ : String → K) (e : Expr) : Prop :=
  ∀ x ∈ e.names, bs.value? x = some (some (varValue ρ x))

/-- Bindings for the variables of a node are bindings for those of its operands. -/
theorem Binds.of_mem_operands {e' : Expr} (h : Binds bs ρ e) (he' : e' ∈ e.operands) :
    Binds bs ρ e' :=
  fun x hx => h x (mem_names.mpr (.inr ⟨e', he', hx⟩))

/-- A variable that names no constant has the first value that is bound to it. -/
theorem value?_eq_of_lookup {x : String} (hx : NamedConstant.isName x = false)
    (h : bs.lookup x = some (some (ρ x))) : bs.value? x = some (some (varValue ρ x)) := by
  have hnone : NamedConstant.ofName? x = none := by simpa [NamedConstant.isName] using hx
  rw [Bindings.value?, varValue, hnone, h, Option.elim_none]

/-- Named constants have their values whatever is bound. -/
theorem value?_of_isName {x : String} (hx : NamedConstant.isName x = true) :
    bs.value? x = some (some (varValue ρ x)) := by
  obtain ⟨c, hc⟩ := Option.isSome_iff_exists.mp hx
  rw [Bindings.value?, varValue, hc]
  rfl

theorem bind_eq_ok {ε α β : Type} {x : Except ε α} {f : α → Except ε β} {b : β} :
    x >>= f = .ok b ↔ ∃ a, x = .ok a ∧ f a = .ok b := by
  cases x <;> simp [bind, Except.bind]

/-- The evaluator finds the value of the expression under the assignment, and finds one only if
there is one. -/
def Agrees (bs : Bindings (Option K)) (ρ : String → K) (e : Expr) : Prop :=
  ∀ v, e.evaluate bs = .ok (some v) ↔ Defined ρ e ∧ value ρ e = v

namespace Agrees

/-- Several trees are evaluated to numbers if and only if each of them is defined, and then to their
values. -/
theorem evaluateAll_iff (h : ∀ e ∈ es, Agrees bs ρ e) :
    evaluateAll bs es = .ok (vs.map some) ↔ (∀ e ∈ es, Defined ρ e) ∧ es.map (value ρ) = vs := by
  induction es generalizing vs with
  | nil => cases vs <;> simp [evaluateAll]
  | cons e es ih =>
    rw [List.forall_mem_cons] at h
    rw [evaluateAll, List.forall_mem_cons, List.map_cons]
    constructor
    · intro heval
      obtain ⟨w, hw, heval⟩ := bind_eq_ok.mp heval
      obtain ⟨ws, hws, heval⟩ := bind_eq_ok.mp heval
      cases vs with
      | nil => cases heval
      | cons v vs =>
        cases heval
        obtain ⟨hdef, rfl⟩ := (h.1 _).mp hw
        obtain ⟨hdefs, rfl⟩ := (ih h.2).mp hws
        exact ⟨⟨hdef, hdefs⟩, rfl⟩
    · rintro ⟨⟨hdef, hdefs⟩, rfl⟩
      have he := (h.1 _).mpr ⟨hdef, rfl⟩
      have hes := (ih h.2).mpr ⟨hdefs, rfl⟩
      rw [he, hes]
      rfl

/-- A sum is evaluated to its value if its addends are. -/
theorem sum (h : ∀ e ∈ es, Agrees bs ρ e) : Agrees bs ρ (.sum es) := by
  intro v
  rw [Defined.sum_iff, value_sum, evaluate]
  constructor
  · intro heval
    obtain ⟨ws, hws, heval⟩ := bind_eq_ok.mp heval
    obtain ⟨xs, rfl, hsum⟩ := foldl_add_eq_some.mp (Except.ok.inj heval)
    obtain ⟨hdef, rfl⟩ := (evaluateAll_iff h).mp hws
    exact ⟨hdef, by rwa [zero_add] at hsum⟩
  · rintro ⟨hdef, rfl⟩
    rw [(evaluateAll_iff h).mpr ⟨hdef, rfl⟩]
    exact congrArg _ (foldl_add_eq_some.mpr ⟨_, rfl, zero_add _⟩)

/-- A product is evaluated to its value if its factors are. -/
theorem prod (h : ∀ e ∈ es, Agrees bs ρ e) : Agrees bs ρ (.prod es) := by
  have hone : ((1 : Int64).toInt : K) = 1 := by simp [Int64.toInt_one]
  intro v
  rw [Defined.prod_iff, value_prod, evaluate]
  constructor
  · intro heval
    obtain ⟨ws, hws, heval⟩ := bind_eq_ok.mp heval
    obtain ⟨xs, rfl, hprod⟩ := foldl_mul_eq_some.mp (Except.ok.inj heval)
    obtain ⟨hdef, rfl⟩ := (evaluateAll_iff h).mp hws
    exact ⟨hdef, by rwa [hone, one_mul] at hprod⟩
  · rintro ⟨hdef, rfl⟩
    rw [(evaluateAll_iff h).mpr ⟨hdef, rfl⟩]
    exact congrArg _ (foldl_mul_eq_some.mpr ⟨_, rfl, by rw [hone, one_mul]⟩)

/-- A quotient is evaluated to its value if its parts are, and fails over a denominator of value
`0`. -/
theorem quot (ha : Agrees bs ρ a) (hb : Agrees bs ρ b) : Agrees bs ρ (.quot a b) := by
  intro v
  rw [Defined.quot_iff, value_quot, evaluate]
  constructor
  · intro heval
    obtain ⟨x, hx, heval⟩ := bind_eq_ok.mp heval
    obtain ⟨y, hy, heval⟩ := bind_eq_ok.mp heval
    obtain ⟨x, y, rfl, rfl, hne, rfl⟩ := div_eq_some.mp (Except.ok.inj heval)
    obtain ⟨hda, rfl⟩ := (ha x).mp hx
    obtain ⟨hdb, rfl⟩ := (hb y).mp hy
    exact ⟨⟨hda, hdb, hne⟩, rfl⟩
  · rintro ⟨⟨hda, hdb, hne⟩, rfl⟩
    rw [(ha _).mpr ⟨hda, rfl⟩, (hb _).mpr ⟨hdb, rfl⟩]
    exact congrArg _ (div_eq_some.mpr ⟨_, _, rfl, rfl, hne, rfl⟩)

/-- A power is evaluated to its value if its parts are, where it is defined. -/
theorem pow (ha : Agrees bs ρ a) (hb : Agrees bs ρ b) : Agrees bs ρ (.pow a b) := by
  intro v
  rw [Defined.pow_iff, value_pow, evaluate]
  constructor
  · intro heval
    obtain ⟨x, hx, heval⟩ := bind_eq_ok.mp heval
    obtain ⟨y, hy, heval⟩ := bind_eq_ok.mp heval
    obtain ⟨x, y, rfl, rfl, hdom, rfl⟩ := power_eq_some.mp (Except.ok.inj heval)
    obtain ⟨hda, rfl⟩ := (ha x).mp hx
    obtain ⟨hdb, rfl⟩ := (hb y).mp hy
    exact ⟨⟨hda, hdb, hdom⟩, rfl⟩
  · rintro ⟨⟨hda, hdb, hdom⟩, rfl⟩
    rw [(ha _).mpr ⟨hda, rfl⟩, (hb _).mpr ⟨hdb, rfl⟩]
    exact congrArg _ (power_eq_some.mpr ⟨_, _, rfl, rfl, hdom, rfl⟩)

/-- A function is evaluated to its value if its argument is, where it is defined. -/
theorem app (f : Func) (ha : Agrees bs ρ a) : Agrees bs ρ (.app f a) := by
  intro v
  rw [Defined.app_iff, value_app, evaluate]
  constructor
  · intro heval
    obtain ⟨x, hx, heval⟩ := bind_eq_ok.mp heval
    obtain ⟨x, rfl, hdom, rfl⟩ := apply_eq_some.mp (Except.ok.inj heval)
    obtain ⟨hda, rfl⟩ := (ha x).mp hx
    exact ⟨⟨hda, hdom⟩, rfl⟩
  · rintro ⟨⟨hda, hdom⟩, rfl⟩
    rw [(ha _).mpr ⟨hda, rfl⟩]
    exact congrArg _ (apply_eq_some.mpr ⟨_, rfl, hdom, rfl⟩)

end Agrees

/-- If all variables are bound as the assignment has them, the evaluator agrees with it. -/
theorem Binds.agrees (h : Binds bs ρ e) : Agrees bs ρ e := by
  induction e using operands_induct with
  | node e ih =>
    have operand : ∀ e' ∈ e.operands, Agrees bs ρ e' :=
      fun e' he' => ih e' he' (h.of_mem_operands he')
    cases e with
    | var x =>
      intro v
      rw [evaluate, h x (by simp [names])]
      simp
    | num n => simp [Agrees, evaluate]
    | sum es => exact .sum operand
    | prod es => exact .prod operand
    | quot a b => exact .quot (operand a (by simp [operands])) (operand b (by simp [operands]))
    | pow a b => exact .pow (operand a (by simp [operands])) (operand b (by simp [operands]))
    | app f a => exact .app f (operand a (by simp [operands]))
    | eqn a b => simp [Agrees, evaluate]

end Exact

end ComputerAlgebra
