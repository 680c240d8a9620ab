import ComputerAlgebra.Parsing.Formula
import ComputerAlgebra.Proofs.Checked.Basic

/-!
# Reading formulas with checked construction

The tree of an operator is built by the checked constructors. Whether a formula is accepted, and as
what, is the same, so reading a formula fails no check.
-/

namespace ComputerAlgebra

namespace Checked

open ComputerAlgebra.Expr
open Parsing (Fault Located Token)
open Parsing.ReversePolish (Item)

variable {α β : Type} {a b : Expr}

/-! ### Results with faults -/

/-- The checked computation has the result or the fault of the other one, so no check fails; and the
result satisfies `post`. -/
structure Follows (checked : ExceptT Fault Option α) (plain : Except Fault α) (post : α → Prop) :
    Prop where
  run_eq : checked.run = some plain
  post_of_eq_ok (a : α) (h : plain = .ok a) : post a

namespace Follows

variable {checked : ExceptT Fault Option α} {plain : Except Fault α} {post : α → Prop}
  {post' : β → Prop} {next' : α → ExceptT Fault Option β} {next : α → Except Fault β}

/-- A computation that builds no sum and no product has nothing to check. -/
theorem lift (h : ∀ a, plain = .ok a → post a) : Follows (ExceptT.mk (some plain)) plain post :=
  ⟨rfl, h⟩

theorem ok {a : α} (h : post a) : Follows (Pure.pure a) (.ok a) post :=
  ⟨rfl, fun _ ha => Except.ok.inj ha ▸ h⟩

theorem error (fault : Fault) : Follows (throw fault) (.error fault) post := ⟨rfl, nofun⟩

/-- One step follows the other, given what the first one ensures. -/
theorem bind (h : Follows checked plain post)
    (hnext : ∀ a, post a → Follows (next' a) (next a) post') :
    Follows (checked >>= next') (plain >>= next) post' := by
  obtain ⟨hrun, hpost⟩ := h
  cases plain with
  | error fault => exact ⟨by rw [ExceptT.run_bind, hrun]; rfl, nofun⟩
  | ok a =>
    obtain ⟨hrun', hpost'⟩ := hnext a (hpost a rfl)
    exact ⟨by rw [ExceptT.run_bind, hrun]; exact hrun', hpost'⟩

/-- A fold follows the other one if its steps do, with `post` as invariant. -/
theorem foldlM {step' : α → β → ExceptT Fault Option α} {step : α → β → Except Fault α}
    (hstep : ∀ a, post a → ∀ b, Follows (step' a b) (step a b) post) {a : α} (h : post a)
    (bs : List β) : Follows (bs.foldlM step' a) (bs.foldlM step a) post := by
  induction bs generalizing a with
  | nil => exact .ok h
  | cons b bs ih => exact (hstep a h b).bind fun _ => ih

end Follows

/-! ### Trees from items -/

/-- The tree of an infix operator. -/
def combine : Operator → Expr → Expr → Option Expr
  | .add, a, b => sum [a, b]
  | .sub, a, b => subtract a b
  | .mul, a, b => prod [a, b]
  | .div, a, b => some (.quot a b)
  | .pow, a, b => some (.pow a b)

/-- Let one item act on the stack of finished operands. -/
def apply (stack : List Expr) (item : Located Item) : ExceptT Fault Option (List Expr) :=
  match item.value, stack with
  | .op o, b :: a :: stack => do return (← ExceptT.lift (combine o a b)) :: stack
  | _, _ => .mk (some (Parsing.apply stack item))

/-- Build the tree of items in reverse Polish order. -/
def buildItems (items : List (Located Item)) : ExceptT Fault Option Expr := do
  match ← items.foldlM apply [] with
  | [e] => return e
  | _ => throw (.overall .invalidExpression)

/-- Read one side of an equation, or a formula without equality sign. -/
def readSide (ts : List Token) : ExceptT Fault Option Expr :=
  if ts.isEmpty then throw (.overall .emptyExpression)
  else do buildItems (← .mk (some (Parsing.ReversePolish.ofTokens ts)))

/-- Read the tokens of a formula. -/
def readTokens (ts : List Token) : ExceptT Fault Option Expr :=
  match ts.span fun t => !t.isEquals with
  | (_, []) => readSide ts
  | (left, _ :: right) =>
    if right.any Token.isEquals then throw (.overall .severalEquals)
    else do return .eqn (← readSide left) (← readSide right)

/-- Read a formula. -/
def parse (text : String) : Option (Except SyntaxError Expr) :=
  (readTokens (Token.ofText text)).run.map
    (Except.mapError fun fault => { fault with text })

theorem combine_builds (op : Operator) (ha : a.WellFormed) (hb : b.WellFormed) :
    Builds (combine op a b) (Parsing.combine op a b) := by
  cases op with
  | add => exact .sum_pair ha hb
  | sub => exact .subtract ha hb
  | mul => exact .prod_pair ha hb
  | div => exact .of_wellFormed (.quot ha hb)
  | pow => exact .of_wellFormed (.pow ha hb)

theorem wellFormed_readNumeral? {cs : List Char} {e : Expr}
    (h : Parsing.readNumeral? cs = some e) : e.WellFormed := by
  simp only [Parsing.readNumeral?, List.isEmpty_iff] at h
  split_ifs at h
  all_goals simp only [bind, Option.bind_eq_some_iff, Option.some.injEq] at h
  · obtain ⟨value, -, rfl⟩ := h
    exact .num value
  · obtain ⟨value, -, scale, -, rfl⟩ := h
    exact .quot (.num value) (.num scale)

/-- An item of the output follows on a stack of well-formed trees, and leaves such a stack. -/
theorem apply_follows {stack : List Expr} (h : ∀ e ∈ stack, e.WellFormed)
    (item : Located Item) :
    Follows (apply stack item) (Parsing.apply stack item) fun stack =>
      ∀ e ∈ stack, e.WellFormed := by
  have push {e : Expr} {stack : List Expr} (he : e.WellFormed) (h : ∀ e ∈ stack, e.WellFormed) :
      Follows (Pure.pure (e :: stack)) (.ok (e :: stack)) fun stack => ∀ e ∈ stack, e.WellFormed :=
    .ok (List.forall_mem_cons.mpr ⟨he, h⟩)
  obtain ⟨item, span⟩ := item
  match item, stack, h with
  | .op o, b :: a :: stack, h =>
    simp only [List.forall_mem_cons] at h
    have hcombine := combine_builds o h.2.1 h.1
    show Follows (do return (← ExceptT.lift (combine o a b)) :: stack) _ _
    rw [hcombine.eq_some]
    exact push hcombine.wellFormed h.2.2
  | .number digits, stack, h =>
    show Follows (.mk (some (Parsing.apply stack ⟨.number digits, span⟩))) _ _
    simp only [Parsing.apply]
    cases hread : Parsing.readNumeral? digits with
    | none => exact .error _
    | some e => exact push (wellFormed_readNumeral? hread) h
  | .minusOne, stack, h => exact push (.num (-1)) h
  | .name x, stack, h => exact push (.var x) h
  | .func f, a :: stack, h =>
    rw [List.forall_mem_cons] at h
    exact push (.app f h.1) h.2
  | .func _, [], _ | .op _, [], _ | .op _, [_], _ => exact .error _

/-- A tree is built of items without a failing check. -/
theorem buildItems_follows (items : List (Located Item)) :
    Follows (buildItems items) (Parsing.build items) WellFormed := by
  refine (Follows.foldlM (fun _ => apply_follows) (by simp) items).bind fun stack hstack => ?_
  match stack, hstack with
  | [e], hstack => exact .ok (hstack e List.mem_cons_self)
  | [], _ | _ :: _ :: _, _ => exact .error _

/-- One side of a formula is built without a failing check. -/
theorem readSide_follows (ts : List Token) :
    Follows (readSide ts) (Parsing.readSide ts) WellFormed := by
  rw [readSide, Parsing.readSide]
  split_ifs
  · exact .error _
  · have hitems : Follows (.mk (some (Parsing.ReversePolish.ofTokens ts)))
        (Parsing.ReversePolish.ofTokens ts) fun _ => True := .lift fun _ _ => trivial
    exact hitems.bind fun items _ => buildItems_follows items

/-- A formula is built without a failing check, and refused in the same cases. -/
theorem readTokens_follows (ts : List Token) :
    Follows (readTokens ts) (Parsing.readTokens ts) WellFormed := by
  unfold readTokens Parsing.readTokens
  generalize (ts.span fun t => !t.isEquals) = sides
  obtain ⟨left, right⟩ := sides
  cases right with
  | nil => exact readSide_follows ts
  | cons _ right =>
    dsimp only
    split_ifs
    · exact .error _
    · refine (readSide_follows left).bind fun a ha => ?_
      exact (readSide_follows right).bind fun b hb => .ok (.eqn ha hb)

/-- No check fails while a formula is read, and the tree is well formed. -/
theorem parse_eq_some (text : String) :
    parse text = some (Expr.parse text) ∧ ∀ e, Expr.parse text = .ok e → e.WellFormed := by
  obtain ⟨hrun, hwf⟩ := readTokens_follows (Token.ofText text)
  rw [parse, Expr.parse, hrun]
  refine ⟨rfl, fun e he => ?_⟩
  cases hread : Parsing.readTokens (Token.ofText text) with
  | error fault =>
    rw [hread] at he
    cases he
  | ok e' =>
    rw [hread] at he
    cases he
    exact hwf _ hread

end Checked

end ComputerAlgebra
