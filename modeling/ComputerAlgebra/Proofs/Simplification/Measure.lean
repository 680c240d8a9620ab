import ComputerAlgebra.Proofs.Expr.Operands
import ComputerAlgebra.Proofs.Integer.LowestTerms

/-!
# A measure that no round increases

No size of trees goes down with every pass: collecting makes `x + x` a product, and merging
fractions makes products of numerators. What goes down is a weight in which the literal `1` costs
nothing and a sum costs what its operands and its signs do. Among trees of one weight a second
number, the slack, counts what a pass may still do without changing the weight: combining factors,
dropping factors `1`, moving a fraction bar out of a product, reducing a fraction.

`Expr.Descends` compares by weight first and by fraction bars and slack second. It is kept by every
node (`Expr.Descends.mapOperands`), so a pass descends if its rule does.
-/

namespace ComputerAlgebra

instance (q : Fraction) : Decidable q.IsLowest :=
  decidable_of_iff (0 < q.den.toInt ∧ q.num.toInt.natAbs.Coprime q.den.toInt.natAbs)
    ⟨fun h => ⟨h.1, h.2⟩, fun h => ⟨h.1, h.2⟩⟩

namespace Expr

/-! ### Weight -/

/-- What a denominator costs besides its weight: nothing if it is an integer without a sign. -/
def signCost : Expr → Nat
  | .num d => if d < 0 then 1 else 0
  | _ => 1

mutual

/-- The weight of a tree. A power of base weight `0` is a power of `1`, and its exponent costs
nothing. -/
def weight : Expr → Nat
  | .var _ => 1
  | .num n => if n = 1 then 0 else if n < 0 then 4 else 1
  | .sum es => weightAll es + (es.length - 1)
  | .prod es => weightAll es
  | .quot a b => weight a + weight b + 2 + signCost b
  | .pow a b => if weight a = 0 then 0 else weight a + weight b
  | .app _ a => weight a + 2
  | .eqn a b => weight a + weight b + 1

/-- The weight of a list of trees. -/
def weightAll : List Expr → Nat
  | [] => 0
  | e :: es => weight e + weightAll es

end

mutual

/-- The number of fraction bars that have an effect on the weight. -/
def bars : Expr → Nat
  | .var _ => 0
  | .num _ => 0
  | .sum es => barsAll es
  | .prod es => barsAll es
  | .quot a b => bars a + bars b + 1
  | .pow a b => if weight a = 0 then bars a else bars a + bars b
  | .app _ a => bars a
  | .eqn a b => bars a + bars b

/-- The number of fraction bars in a list of trees. -/
def barsAll : List Expr → Nat
  | [] => 0
  | e :: es => bars e + barsAll es

end

/-! ### Slack -/

/-- What is left to do at a quotient: nothing if it is a quotient of integers that does not
reduce. -/
def reductionCost : Expr → Expr → Nat
  | .num n, .num d => if d = 0 ∨ Fraction.IsLowest ⟨n, d⟩ ∧ d ≠ 1 then 0 else 1
  | _, _ => 1

/-- The number of factors that have a weight. -/
def heavy (es : List Expr) : Nat := es.countP fun e => e.weight ≠ 0

/-- The number of factors without a weight. A factor `1` next to a single other factor is not
counted: that is the form which collecting gives to a multiple of `1`. -/
def idle (es : List Expr) : Nat :=
  es.countP (fun e => e.weight = 0) - if es.length = 2 ∧ 1 ∈ es then 1 else 0

/-- The number of addends without a weight that are not yet the literal `1`. -/
def dull (es : List Expr) : Nat := es.countP fun e => e.weight = 0 ∧ e ≠ 1

/-- A product with a factor `1` has two factors with a weight, so the `1` is counted. -/
def Anchored : Expr → Prop
  | .prod es => 1 ∈ es → 2 ≤ heavy es
  | _ => True

mutual

/-- What the passes may still do at this weight. -/
def slack : Expr → Nat
  | .var _ => 0
  | .num _ => 0
  | .sum es => slackAll es + (es.length - 1) + 2 * dull es
  | .prod es => slackAll es + 5 * (heavy es - 1) + 2 * idle es + 4 * barsAll es
  | .quot a b => slack a + slack b + reductionCost a b
  | .pow a b => if weight a = 0 then slack a + 1 else slack a + slack b + 1
  | .app _ a => slack a
  | .eqn a b => slack a + slack b

/-- The slack of a list of trees. -/
def slackAll : List Expr → Nat
  | [] => 0
  | e :: es => slack e + slackAll es

end

/-! ### Equations -/

theorem weightAll_eq (es : List Expr) : weightAll es = (es.map weight).sum := by
  induction es with
  | nil => rfl
  | cons e es ih => simp [weightAll, ih]

theorem barsAll_eq (es : List Expr) : barsAll es = (es.map bars).sum := by
  induction es with
  | nil => rfl
  | cons e es ih => simp [barsAll, ih]

theorem slackAll_eq (es : List Expr) : slackAll es = (es.map slack).sum := by
  induction es with
  | nil => rfl
  | cons e es ih => simp [slackAll, ih]

section

variable (x : String) (n : Int64) (es : List Expr) (a b : Expr) (f : Func)

@[simp] theorem weight_var : (var x).weight = 1 := rfl

theorem weight_num :
    (num n).weight = if n.toInt = 1 then 0 else if n.toInt < 0 then 4 else 1 := by
  simp only [weight, ← Int64.toInt_inj, Int64.lt_iff_toInt_lt, Int64.toInt_one, Int64.toInt_zero]

/-- Only the literal `1` is an integer without a weight. -/
theorem weight_num_eq_zero_iff : (num n).weight = 0 ↔ n = 1 := by
  rw [weight_num, ← Int64.toInt_inj, Int64.toInt_one]
  split_ifs <;> simp_all

@[simp] theorem weight_zero : (0 : Expr).weight = 1 := rfl

@[simp] theorem weight_one : (1 : Expr).weight = 0 := rfl

@[simp] theorem weight_sum : (sum es).weight = (es.map weight).sum + (es.length - 1) := by
  rw [weight, weightAll_eq]

@[simp] theorem weight_prod : (prod es).weight = (es.map weight).sum := by
  rw [weight, weightAll_eq]

@[simp] theorem weight_quot : (quot a b).weight = a.weight + b.weight + 2 + b.signCost := rfl

@[simp] theorem weight_pow :
    (pow a b).weight = if a.weight = 0 then 0 else a.weight + b.weight := rfl

@[simp] theorem weight_app : (app f a).weight = a.weight + 2 := rfl

@[simp] theorem weight_eqn : (eqn a b).weight = a.weight + b.weight + 1 := rfl

@[simp] theorem bars_var : (var x).bars = 0 := rfl

@[simp] theorem bars_num : (num n).bars = 0 := rfl

@[simp] theorem bars_zero : (0 : Expr).bars = 0 := rfl

@[simp] theorem bars_one : (1 : Expr).bars = 0 := rfl

@[simp] theorem bars_sum : (sum es).bars = (es.map bars).sum := by
  rw [bars, barsAll_eq]

@[simp] theorem bars_prod : (prod es).bars = (es.map bars).sum := by
  rw [bars, barsAll_eq]

@[simp] theorem bars_quot : (quot a b).bars = a.bars + b.bars + 1 := rfl

@[simp] theorem bars_pow :
    (pow a b).bars = if a.weight = 0 then a.bars else a.bars + b.bars := rfl

@[simp] theorem bars_app : (app f a).bars = a.bars := rfl

@[simp] theorem bars_eqn : (eqn a b).bars = a.bars + b.bars := rfl

@[simp] theorem slack_var : (var x).slack = 0 := rfl

@[simp] theorem slack_num : (num n).slack = 0 := rfl

@[simp] theorem slack_zero : (0 : Expr).slack = 0 := rfl

@[simp] theorem slack_one : (1 : Expr).slack = 0 := rfl

@[simp] theorem slack_sum :
    (sum es).slack = (es.map slack).sum + (es.length - 1) + 2 * dull es := by
  rw [slack, slackAll_eq]

@[simp] theorem slack_prod :
    (prod es).slack =
      (es.map slack).sum + 5 * (heavy es - 1) + 2 * idle es + 4 * (es.map bars).sum := by
  rw [slack, slackAll_eq, barsAll_eq]

@[simp] theorem slack_quot : (quot a b).slack = a.slack + b.slack + reductionCost a b := rfl

@[simp] theorem slack_pow :
    (pow a b).slack = if a.weight = 0 then a.slack + 1 else a.slack + b.slack + 1 := rfl

@[simp] theorem slack_app : (app f a).slack = a.slack := rfl

@[simp] theorem slack_eqn : (eqn a b).slack = a.slack + b.slack := rfl

theorem signCost_num : (num n).signCost = if n.toInt < 0 then 1 else 0 := by
  simp only [signCost, Int64.lt_iff_toInt_lt, Int64.toInt_zero]

theorem signCost_le : a.signCost ≤ 1 := by
  unfold signCost
  split
  · split_ifs <;> simp
  · exact le_rfl

/-- At a quotient there is at most one reduction left to do. -/
theorem reductionCost_le : reductionCost a b ≤ 1 := by
  unfold reductionCost
  split
  · split_ifs <;> simp
  · exact le_rfl

end

/-- What has no weight has no fraction bar. -/
theorem bars_eq_zero {e : Expr} (h : e.weight = 0) : e.bars = 0 := by
  induction e using Expr.induct with
  | sum es ih =>
    have hes : (es.map weight).sum = 0 := by
      rw [weight_sum] at h
      omega
    rw [List.sum_eq_zero_iff, List.forall_mem_map] at hes
    rw [bars_sum, List.sum_eq_zero_iff, List.forall_mem_map]
    exact fun e he => ih e he (hes e he)
  | prod es ih =>
    rw [weight_prod, List.sum_eq_zero_iff, List.forall_mem_map] at h
    rw [bars_prod, List.sum_eq_zero_iff, List.forall_mem_map]
    exact fun e he => ih e he (h e he)
  | pow a b iha ihb =>
    have ha : a.weight = 0 := by
      by_contra ha
      rw [weight_pow, if_neg ha] at h
      omega
    rw [bars_pow, if_pos ha, iha ha]
  | _ => simp_all

/-! ### Comparison -/

/-- The measure of the second tree is not above that of the first, and an integer stays what it
is. -/
structure Descends (e e' : Expr) : Prop where
  leaf : ∀ n, e = .num n → e' = e
  cost : e'.weight < e.weight ∨ e'.weight = e.weight ∧ e'.bars ≤ e.bars ∧ e'.slack ≤ e.slack

/-- The measure of the second tree is below that of the first. -/
def Drops (e e' : Expr) : Prop :=
  e'.weight < e.weight ∨ e'.weight = e.weight ∧ e'.bars ≤ e.bars ∧ e'.slack < e.slack

/-- Two trees have the same measure. -/
def Level (e e' : Expr) : Prop := e'.weight = e.weight ∧ e'.slack = e.slack

variable {a a' b b' e e' e'' : Expr} {es fs : List Expr} {f : Expr → Expr}

theorem Descends.refl (e : Expr) : Descends e e := ⟨fun _ _ => rfl, .inr ⟨rfl, le_rfl, le_rfl⟩⟩

theorem Descends.trans (h : Descends e e') (h' : Descends e' e'') : Descends e e'' := by
  refine ⟨fun n hn => ?_, ?_⟩
  · have he' := h.leaf n hn
    rw [h'.leaf n (he'.trans hn), he']
  · have hc := h.cost
    have hc' := h'.cost
    omega

/-- What drops descends, if it is no integer. -/
theorem Drops.descends (h : Drops e e') (hleaf : ∀ n, e ≠ .num n) : Descends e e' :=
  ⟨fun n hn => absurd hn (hleaf n), h.imp_right fun ⟨hw, hb, hs⟩ => ⟨hw, hb, hs.le⟩⟩

/-- What drops leaves its level. -/
theorem Drops.not_level (h : Drops e e') : ¬Level e e' := by
  rintro ⟨hw, hs⟩
  rcases h with h | ⟨-, -, h⟩ <;> omega

/-- A descent that leaves its level drops. -/
theorem Descends.drops (h : Descends e e') (hl : ¬Level e e') : Drops e e' := by
  have hc := h.cost
  simp only [Level] at hl
  simp only [Drops]
  omega

/-- A drop after a descent is a drop from where that began. -/
theorem Descends.trans_drops (h : Descends e e') (h' : Drops e' e'') : Drops e e'' := by
  have hc := h.cost
  simp only [Drops] at h' ⊢
  omega

theorem Level.refl (e : Expr) : Level e e := ⟨rfl, rfl⟩

/-- If a descent in two steps ends on the level on which it began, so does each step. -/
theorem Level.of_trans (h : Descends e e') (h' : Descends e' e'') (hl : Level e e'') :
    Level e e' ∧ Level e' e'' := by
  obtain ⟨hw, hs⟩ := hl
  have hc := h.cost
  have hc' := h'.cost
  refine ⟨⟨?_, ?_⟩, ⟨?_, ?_⟩⟩ <;> omega

/-! ### Operands -/

/-- Term by term descent of sums. -/
theorem sum_descends {ι : Type*} {l : List ι} {w w' b b' s s' : ι → ℕ}
    (h : ∀ i ∈ l, w' i < w i ∨ w' i = w i ∧ b' i ≤ b i ∧ s' i ≤ s i) :
    (l.map w').sum < (l.map w).sum ∨
      (∀ i ∈ l, w' i = w i) ∧ (l.map b').sum ≤ (l.map b).sum ∧ (l.map s').sum ≤ (l.map s).sum := by
  by_cases hw : ∀ i ∈ l, w' i = w i
  · have hrest : ∀ i ∈ l, b' i ≤ b i ∧ s' i ≤ s i := fun i hi =>
      ((h i hi).resolve_left (hw i hi).not_lt).2
    exact .inr ⟨hw, List.sum_le_sum fun i hi => (hrest i hi).1,
      List.sum_le_sum fun i hi => (hrest i hi).2⟩
  · push Not at hw
    obtain ⟨i, hi, hne⟩ := hw
    refine .inl (List.sum_lt_sum w' w (fun i hi => ?_) ⟨i, hi, ?_⟩)
    · rcases h i hi with h | h <;> omega
    · exact (h i hi).resolve_right fun h => hne h.1

/-- Sums drop if no term goes up and one of them drops. -/
theorem sum_drops {ι : Type*} {l : List ι} {w w' b b' s s' : ι → ℕ}
    (h : ∀ i ∈ l, w' i < w i ∨ w' i = w i ∧ b' i ≤ b i ∧ s' i ≤ s i)
    (hdrop : ∃ i ∈ l, w' i < w i ∨ w' i = w i ∧ b' i ≤ b i ∧ s' i < s i) :
    (l.map w').sum < (l.map w).sum ∨
      (∀ i ∈ l, w' i = w i) ∧ (l.map b').sum ≤ (l.map b).sum ∧ (l.map s').sum < (l.map s).sum := by
  refine (sum_descends h).imp_right fun ⟨hw, hb, _⟩ => ⟨hw, hb, ?_⟩
  obtain ⟨i, hi, hdrop⟩ := hdrop
  refine List.sum_lt_sum s' s (fun j hj => ?_) ⟨i, hi, ?_⟩
  · exact ((h j hj).resolve_left (hw j hj).not_lt).2.2
  · exact (hdrop.resolve_left (hw i hi).not_lt).2.2

/-- A sum of addends of at least some size is at least so many times this size. -/
theorem sum_le_sum_map {ι : Type*} {c : ℕ} {f : ι → ℕ} (l : List ι) (h : ∀ i ∈ l, c ≤ f i) :
    l.length * c ≤ (l.map f).sum := by
  simpa using List.card_nsmul_le_sum (l.map f) c (List.forall_mem_map.2 h)

/-- Sums that are equal have equal terms, if no term goes up. -/
theorem eq_of_sum_eq {ι : Type*} {l : List ι} {w w' : ι → ℕ} (h : ∀ i ∈ l, w' i ≤ w i)
    (heq : (l.map w').sum = (l.map w).sum) : ∀ i ∈ l, w' i = w i := by
  intro i hi
  by_contra hne
  exact absurd heq (List.sum_lt_sum w' w h ⟨i, hi, lt_of_le_of_ne (h i hi) hne⟩).ne

/-- A descent brings no minus sign into a denominator. -/
theorem signCost_le_of_descends (h : Descends e e') : e'.signCost ≤ e.signCost := by
  cases e with
  | num n => rw [h.leaf n rfl]
  | _ => exact signCost_le e'

/-- Descents of both parts leave no more to reduce than there was. -/
theorem reductionCost_le_of_descends (ha : Descends a e) (hb : Descends b e') :
    reductionCost e e' ≤ reductionCost a b := by
  cases a with
  | num n =>
    cases b with
    | num d => rw [ha.leaf n rfl, hb.leaf d rfl]
    | _ => exact reductionCost_le _ _
  | _ => exact reductionCost_le _ _

/-- Whether a factor has a weight is the same before and after, if the weights are. -/
theorem heavy_map (h : ∀ e ∈ es, (f e).weight = e.weight) : heavy (es.map f) = heavy es := by
  rw [heavy, heavy, List.countP_map]
  refine List.countP_congr fun e he => ?_
  simp [h e he]

/-- Operands that descend without losing weight bring no factor without a weight. -/
theorem idle_map_le (h : ∀ e ∈ es, Descends e (f e)) (hw : ∀ e ∈ es, (f e).weight = e.weight) :
    idle (es.map f) ≤ idle es := by
  have hcount : (es.map f).countP (fun e => e.weight = 0) = es.countP (fun e => e.weight = 0) := by
    rw [List.countP_map]
    refine List.countP_congr fun e he => ?_
    simp [hw e he]
  have hone : 1 ∈ es → 1 ∈ es.map f := fun h1 =>
    List.mem_map.2 ⟨1, h1, (h 1 h1).leaf 1 rfl⟩
  rw [idle, idle, hcount, List.length_map]
  split_ifs with h1 h2 h2
  · exact le_rfl
  · exact Nat.sub_le_sub_left (Nat.zero_le 1) _
  · exact absurd ⟨h2.1, hone h2.2⟩ h1
  · exact le_rfl

/-- Operands that descend without losing weight bring no addend without a weight but ones. -/
theorem dull_map_le (h : ∀ e ∈ es, Descends e (f e)) (hw : ∀ e ∈ es, (f e).weight = e.weight) :
    dull (es.map f) ≤ dull es := by
  rw [dull, dull, List.countP_map]
  refine List.countP_mono_left fun e he hd => ?_
  simp only [Function.comp_apply, hw e he, decide_eq_true_eq] at hd ⊢
  refine ⟨hd.1, ?_⟩
  rintro rfl
  exact hd.2 ((h 1 he).leaf 1 rfl)

namespace Descends

theorem sum (h : ∀ e ∈ es, Descends e (f e)) : Descends (.sum es) (.sum (es.map f)) := by
  refine ⟨by simp, ?_⟩
  rcases sum_descends fun e he => (h e he).cost with hw | ⟨hw, hb, hs⟩
  · left
    simpa [Function.comp_def] using hw
  · right
    have hd := dull_map_le h hw
    simp only [weight_sum, bars_sum, slack_sum, List.map_map, Function.comp_def, List.length_map]
    rw [List.map_congr_left hw]
    exact ⟨rfl, hb, by omega⟩

theorem prod (h : ∀ e ∈ es, Descends e (f e)) : Descends (.prod es) (.prod (es.map f)) := by
  refine ⟨by simp, ?_⟩
  rcases sum_descends fun e he => (h e he).cost with hw | ⟨hw, hb, hs⟩
  · left
    simpa [Function.comp_def] using hw
  · right
    have hi := idle_map_le h hw
    have hh := heavy_map hw
    simp only [weight_prod, bars_prod, slack_prod, List.map_map, Function.comp_def]
    rw [List.map_congr_left hw]
    exact ⟨rfl, hb, by omega⟩

theorem quot (ha : Descends a a') (hb : Descends b b') : Descends (.quot a b) (.quot a' b') := by
  have hsign := signCost_le_of_descends hb
  have hred := reductionCost_le_of_descends ha hb
  have hca := ha.cost
  have hcb := hb.cost
  refine ⟨by simp, ?_⟩
  simp only [weight_quot, bars_quot, slack_quot]
  omega

/-- A power descends with its parts, unless it is the parts of a base without a weight. -/
theorem pow (ha : Descends a a') (hb : Descends b b') : Descends (.pow a b) (.pow a' b') := by
  have hca := ha.cost
  have hcb := hb.cost
  refine ⟨by simp, ?_⟩
  simp only [weight_pow, bars_pow, slack_pow]
  split_ifs <;> omega

theorem app (g : Func) (ha : Descends a a') : Descends (.app g a) (.app g a') := by
  have hca := ha.cost
  refine ⟨by simp, ?_⟩
  simp only [weight_app, bars_app, slack_app]
  omega

/-- An equation descends with its sides. -/
theorem eqn (ha : Descends a a') (hb : Descends b b') : Descends (.eqn a b) (.eqn a' b') := by
  have hca := ha.cost
  have hcb := hb.cost
  refine ⟨by simp, ?_⟩
  simp only [weight_eqn, bars_eqn, slack_eqn]
  omega

/-- Descent of every operand is descent of the tree. -/
theorem mapOperands (h : ∀ e' ∈ e.operands, Descends e' (f e')) :
    Descends e (e.mapOperands f) := by
  cases e with
  | var x => exact .refl _
  | num n => exact .refl _
  | sum es => exact .sum h
  | prod es => exact .prod h
  | quot a b => exact .quot (h a (by simp [operands])) (h b (by simp [operands]))
  | pow a b => exact .pow (h a (by simp [operands])) (h b (by simp [operands]))
  | app g a => exact .app g (h a (by simp [operands]))
  | eqn a b => exact .eqn (h a (by simp [operands])) (h b (by simp [operands]))

/-- A pass descends on well-formed trees if its rule does. -/
theorem bottomUp {rule : Expr → Expr} (hwf : ∀ e, e.WellFormed → (rule e).WellFormed)
    (hrule : ∀ e, e.WellFormed → Descends e (rule e)) (h : e.WellFormed) :
    Descends e (e.bottomUp rule) := by
  induction e using operands_induct with
  | node e ih =>
    have hop : ∀ e' ∈ e.operands, e'.WellFormed := fun _ => h.of_mem_operands
    rw [bottomUp_eq]
    refine (mapOperands fun e' he' => ih e' he' (hop e' he')).trans (hrule _ ?_)
    exact h.mapOperands fun e' he' => (hop e' he').bottomUp hwf

end Descends

namespace Level

/-- A sum on the level from which its operands descended has operands on their levels. -/
theorem of_sum (h : ∀ e ∈ es, Descends e (f e)) (hl : Level (.sum es) (.sum (es.map f))) :
    ∀ e ∈ es, Level e (f e) := by
  obtain ⟨hw, hs⟩ := hl
  rw [weight_sum, weight_sum, List.length_map, List.map_map] at hw
  rcases sum_descends fun e he => (h e he).cost with hlt | ⟨heq, hb, hle⟩
  · simp only [Function.comp_def] at hw
    omega
  · have hd := dull_map_le h heq
    rw [slack_sum, slack_sum, List.length_map, List.map_map] at hs
    have hslack : (es.map fun e => (f e).slack).sum = (es.map slack).sum := by
      simp only [Function.comp_def] at hs
      omega
    have hle' : ∀ e ∈ es, (f e).slack ≤ e.slack := fun e he =>
      (((h e he).cost.resolve_left (heq e he).not_lt).2).2
    exact fun e he => ⟨heq e he, eq_of_sum_eq hle' hslack e he⟩

/-- The same of a product. -/
theorem of_prod (h : ∀ e ∈ es, Descends e (f e)) (hl : Level (.prod es) (.prod (es.map f))) :
    ∀ e ∈ es, Level e (f e) := by
  obtain ⟨hw, hs⟩ := hl
  rw [weight_prod, weight_prod, List.map_map] at hw
  rcases sum_descends fun e he => (h e he).cost with hlt | ⟨heq, hb, hle⟩
  · simp only [Function.comp_def] at hw
    omega
  · have hi := idle_map_le h heq
    have hh := heavy_map heq
    rw [slack_prod, slack_prod, List.map_map, List.map_map] at hs
    have hslack : (es.map fun e => (f e).slack).sum = (es.map slack).sum := by
      simp only [Function.comp_def] at hs
      omega
    have hle' : ∀ e ∈ es, (f e).slack ≤ e.slack := fun e he =>
      (((h e he).cost.resolve_left (heq e he).not_lt).2).2
    exact fun e he => ⟨heq e he, eq_of_sum_eq hle' hslack e he⟩

/-- A quotient whose parts descend stays at its level only if both of them do. -/
theorem of_quot (ha : Descends a a') (hb : Descends b b')
    (hl : Level (.quot a b) (.quot a' b')) : Level a a' ∧ Level b b' := by
  have hsign := signCost_le_of_descends hb
  have hred := reductionCost_le_of_descends ha hb
  have hca := ha.cost
  have hcb := hb.cost
  simp only [Level, weight_quot, slack_quot] at hl ⊢
  omega

/-- Of a power the base is on its level, and the exponent is if it counts. -/
theorem of_pow (ha : Descends a a') (hb : Descends b b') (hl : Level (.pow a b) (.pow a' b')) :
    Level a a' ∧ (a.weight ≠ 0 → Level b b') := by
  have hca := ha.cost
  have hcb := hb.cost
  simp only [Level, weight_pow, slack_pow] at hl ⊢
  split_ifs at hl <;> omega

theorem of_app {g : Func} (hl : Level (.app g a) (.app g a')) : Level a a' := by
  simp only [Level, weight_app, slack_app] at hl ⊢
  omega

/-- An equation whose sides descend stays at its level only if both of them do. -/
theorem of_eqn (ha : Descends a a') (hb : Descends b b') (hl : Level (.eqn a b) (.eqn a' b')) :
    Level a a' ∧ Level b b' := by
  have hca := ha.cost
  have hcb := hb.cost
  simp only [Level, weight_eqn, slack_eqn] at hl ⊢
  omega

/-- A tree on the level from which its operands descended has operands on their levels, if all of
them count. -/
theorem operands (hpow : ∀ a b, e = .pow a b → a.weight ≠ 0)
    (h : ∀ e' ∈ e.operands, Descends e' (f e')) (hl : Level e (e.mapOperands f)) :
    ∀ e' ∈ e.operands, Level e' (f e') := by
  cases e with
  | var x => simp [Expr.operands]
  | num n => simp [Expr.operands]
  | sum es => exact of_sum h hl
  | prod es => exact of_prod h hl
  | quot a b =>
    simp only [Expr.operands, List.forall_mem_cons] at h ⊢
    have := of_quot h.1 h.2.1 hl
    simp [this]
  | pow a b =>
    simp only [Expr.operands, List.forall_mem_cons] at h ⊢
    have := of_pow h.1 h.2.1 hl
    simp [this, hpow a b rfl]
  | app g a =>
    simp only [Expr.operands, List.forall_mem_cons] at h ⊢
    simp [of_app hl]
  | eqn a b =>
    simp only [Expr.operands, List.forall_mem_cons] at h ⊢
    have := of_eqn h.1 h.2.1 hl
    simp [this]

/-- A tree on the level from which a pass descended has its operands on their levels, and the rule
keeps the level of its root. -/
theorem of_bottomUp {rule : Expr → Expr} (hwf : ∀ e, e.WellFormed → (rule e).WellFormed)
    (hrule : ∀ e, e.WellFormed → Descends e (rule e)) (h : e.WellFormed)
    (hpow : ∀ a b, e = .pow a b → a.weight ≠ 0) (hl : Level e (e.bottomUp rule)) :
    (∀ e' ∈ e.operands, Level e' (e'.bottomUp rule)) ∧
      Level (e.mapOperands (bottomUp rule)) (rule (e.mapOperands (bottomUp rule))) := by
  have hop : ∀ e' ∈ e.operands, e'.WellFormed := fun _ => h.of_mem_operands
  have hdesc : ∀ e' ∈ e.operands, Descends e' (e'.bottomUp rule) := fun e' he' =>
    .bottomUp hwf hrule (hop e' he')
  have hwf' : (e.mapOperands (bottomUp rule)).WellFormed :=
    h.mapOperands fun e' he' => (hop e' he').bottomUp hwf
  rw [bottomUp_eq] at hl
  obtain ⟨hl, hl'⟩ := of_trans (.mapOperands hdesc) (hrule _ hwf') hl
  exact ⟨hl.operands hpow hdesc, hl'⟩

end Level

/-! ### Derived forms and the order of operands -/

/-- A sum of one or more addends has the weight of a sum, be it one or not. -/
theorem weight_sumOf (h : es ≠ []) : (sumOf es).weight = (Expr.sum es).weight := by
  match es, h with
  | [e], _ => simp [sumOf]
  | _ :: _ :: _, _ => rfl

theorem bars_sumOf (es : List Expr) : (sumOf es).bars = (es.map bars).sum := by
  match es with
  | [] => rfl
  | [e] => simp [sumOf]
  | _ :: _ :: _ => exact bars_sum _

theorem slack_sumOf_le (es : List Expr) : (sumOf es).slack ≤ (Expr.sum es).slack := by
  match es with
  | [] => exact Nat.zero_le _
  | [e] => simp [sumOf]
  | _ :: _ :: _ => exact le_rfl

/-- A product of one or more factors has their weights together. -/
theorem weight_prodOf (h : es ≠ []) : (prodOf es).weight = (es.map weight).sum := by
  match es, h with
  | [e], _ => simp [prodOf]
  | _ :: _ :: _, _ => exact weight_prod _

theorem bars_prodOf (es : List Expr) : (prodOf es).bars = (es.map bars).sum := by
  match es with
  | [] => rfl
  | [e] => simp [prodOf]
  | _ :: _ :: _ => exact bars_prod _

theorem slack_prodOf_le (es : List Expr) : (prodOf es).slack ≤ (Expr.prod es).slack := by
  match es with
  | [] => exact Nat.zero_le _
  | [e] =>
    simp only [prodOf, slack_prod, List.map_cons, List.map_nil, List.sum_cons, List.sum_nil]
    omega
  | _ :: _ :: _ => exact le_rfl

/-- The factors without a weight are all counted where a factor `1` is not the only other one. -/
theorem idle_eq (h : (Expr.prod es).Anchored) : idle es = es.countP fun e => e.weight = 0 := by
  rw [idle, if_neg, Nat.sub_zero]
  rintro ⟨hlen, h1⟩
  have hheavy := h h1
  have hidle : 0 < es.countP fun e => e.weight = 0 :=
    List.countP_pos_iff.2 ⟨1, h1, by simp⟩
  have hsplit := es.length_eq_countP_add_countP fun e => decide (e.weight = 0)
  simp only [heavy, ne_eq] at hheavy
  simp only [decide_eq_true_eq] at hsplit
  omega

/-- No factor has a weight if and only if all of them have none together. -/
theorem heavy_eq_zero_iff : heavy es = 0 ↔ (es.map weight).sum = 0 := by
  simp [heavy, List.countP_eq_zero, List.sum_eq_zero_iff]

theorem dull_singleton (e : Expr) : dull [e] = if e.weight = 0 ∧ e ≠ 1 then 1 else 0 := by
  simp [dull, List.countP_cons]

theorem sum_dull (es : List Expr) : (es.map fun e => dull [e]).sum = dull es := by
  induction es with
  | nil => rfl
  | cons e es ih =>
    have hd : dull ([e] ++ es) = dull [e] + dull es := List.countP_append
    rw [List.singleton_append] at hd
    simp only [List.map_cons, List.sum_cons, ih, hd]

/-- What an addend adds to the slack of a sum. -/
def addendCost (e : Expr) : Nat := e.slack + 2 * dull [e] + 1

/-- What the addends cost is what the sum has of slack, for one addend more. -/
theorem sum_addendCost (es : List Expr) :
    (es.map addendCost).sum = (es.map slack).sum + es.length + 2 * dull es := by
  change (es.map fun e => e.slack + 2 * dull [e] + 1).sum = _
  simp only [List.sum_map_add, List.sum_map_mul_left, sum_dull, List.map_const',
    List.sum_replicate, smul_eq_mul]
  omega

theorem slack_sum_add (h : es ≠ []) :
    (Expr.sum es).slack + 1 = (es.map addendCost).sum := by
  have := List.length_pos_of_ne_nil h
  rw [sum_addendCost, slack_sum]
  omega

/-- The weight of a sum, and one for its first addend, is that of its addends with one for each. -/
theorem weight_sum_add (h : es ≠ []) :
    (Expr.sum es).weight + 1 = (es.map fun e => e.weight + 1).sum := by
  have := List.length_pos_of_ne_nil h
  rw [weight_sum, List.sum_map_add]
  simp
  omega

/-- Sums compare as their addends do. -/
theorem Descends.of_addends (hes : es ≠ []) (hfs : fs ≠ [])
    (h : (fs.map fun e => e.weight + 1).sum < (es.map fun e => e.weight + 1).sum ∨
      (fs.map fun e => e.weight + 1).sum = (es.map fun e => e.weight + 1).sum ∧
      (fs.map bars).sum ≤ (es.map bars).sum ∧
      (fs.map addendCost).sum ≤ (es.map addendCost).sum) : Descends (.sum es) (.sumOf fs) := by
  refine ⟨by simp, ?_⟩
  have hslack := slack_sumOf_le fs
  rw [← weight_sum_add hes, ← weight_sum_add hfs, ← slack_sum_add hes, ← slack_sum_add hfs] at h
  rw [weight_sumOf hfs, bars_sumOf, bars_sum]
  omega

/-- Addends that cost less, in weight or at the same weight, make the sum drop. -/
theorem Drops.of_addends (hes : es ≠ []) (hfs : fs ≠ [])
    (h : (fs.map fun e => e.weight + 1).sum < (es.map fun e => e.weight + 1).sum ∨
      (fs.map fun e => e.weight + 1).sum = (es.map fun e => e.weight + 1).sum ∧
      (fs.map bars).sum ≤ (es.map bars).sum ∧
      (fs.map addendCost).sum < (es.map addendCost).sum) : Drops (.sum es) (.sumOf fs) := by
  have hslack := slack_sumOf_le fs
  rw [← weight_sum_add hes, ← weight_sum_add hfs, ← slack_sum_add hes, ← slack_sum_add hfs] at h
  rw [Drops, weight_sumOf hfs, bars_sumOf, bars_sum]
  omega

/-- What a factor adds to the slack of a product. -/
def factorCost (e : Expr) : Nat := e.slack + 4 * e.bars + if e.weight = 0 then 2 else 5

/-- What the factors cost, told apart by what it is for. -/
theorem sum_factorCost (es : List Expr) :
    (es.map factorCost).sum = (es.map slack).sum + 5 * heavy es +
      2 * (es.countP fun e => e.weight = 0) + 4 * (es.map bars).sum := by
  induction es with
  | nil => rfl
  | cons e es ih =>
    simp only [List.map_cons, List.sum_cons, ih, factorCost, heavy, List.countP_cons]
    split_ifs <;> simp_all <;> omega

/-- One factor with a weight is not counted. -/
theorem slack_prod_add (h : idle es = es.countP fun e => e.weight = 0) :
    (Expr.prod es).slack + (if heavy es = 0 then 0 else 5) = (es.map factorCost).sum := by
  rw [sum_factorCost, slack_prod, h]
  split_ifs <;> omega

/-- A product has no more slack than its factors cost, one factor with a weight being free. -/
theorem slack_prod_le (es : List Expr) :
    (Expr.prod es).slack + (if heavy es = 0 then 0 else 5) ≤ (es.map factorCost).sum := by
  have h : idle es ≤ es.countP fun e => e.weight = 0 := Nat.sub_le _ _
  rw [sum_factorCost, slack_prod]
  split_ifs <;> omega

theorem heavy_perm (h : es.Perm fs) : heavy es = heavy fs := h.countP_eq _

/-- The order of the factors does not matter for how many of them have no weight. -/
theorem idle_perm (h : es.Perm fs) : idle es = idle fs := by
  simp only [idle, h.countP_eq, h.length_eq, h.mem_iff]

theorem dull_perm (h : es.Perm fs) : dull es = dull fs := h.countP_eq _

/-- The order of addends has no influence on the measure. -/
theorem sum_perm (h : es.Perm fs) : (Expr.sum es).weight = (Expr.sum fs).weight ∧
    (Expr.sum es).bars = (Expr.sum fs).bars ∧ (Expr.sum es).slack = (Expr.sum fs).slack := by
  simp only [weight_sum, bars_sum, slack_sum, h.length_eq, dull_perm h, (h.map _).sum_eq,
    and_self]

/-- The order of factors has no influence on the measure. -/
theorem prod_perm (h : es.Perm fs) : (Expr.prod es).weight = (Expr.prod fs).weight ∧
    (Expr.prod es).bars = (Expr.prod fs).bars ∧ (Expr.prod es).slack = (Expr.prod fs).slack := by
  simp only [weight_prod, bars_prod, slack_prod, heavy_perm h, idle_perm h, (h.map _).sum_eq,
    and_self]

/-- The product of `1` and another factor, and that factor. -/
theorem Descends.of_prod_one (a : Expr) : Descends (.prod [1, a]) a := by
  refine ⟨by simp, .inr ?_⟩
  simp only [weight_prod, bars_prod, slack_prod, List.map_cons, List.map_nil, List.sum_cons,
    List.sum_nil, weight_one, bars_one, slack_one]
  omega

/-- The order of the addends does not matter for the measure. -/
theorem Descends.of_sum_perm (h : es.Perm fs) : Descends (.sum es) (.sum fs) := by
  have hperm := sum_perm h.symm
  exact ⟨by simp, .inr ⟨hperm.1, hperm.2.1.le, hperm.2.2.le⟩⟩

/-- The order of the factors does not matter for the measure. -/
theorem Descends.of_prod_perm (h : es.Perm fs) : Descends (.prod es) (.prod fs) := by
  have hperm := prod_perm h.symm
  exact ⟨by simp, .inr ⟨hperm.1, hperm.2.1.le, hperm.2.2.le⟩⟩

end Expr

end ComputerAlgebra
