import ComputerAlgebra.Parsing.Formula
import Mathlib

/-!
# Scan and build in one

The two stages of reading a formula as one machine, which lets every item act on a stack of trees as
soon as the scan puts it out. Whether a formula is accepted, and as what, is the same
(`toOption_build_ofTokens`); only the faults of refused formulas are lost.
-/

namespace ComputerAlgebra

namespace Parsing

open ReversePolish (Item Pending calls)

/-! ### The machine -/

/-- Let an item act on the finished trees. -/
def act? : Item → List Expr → Option (List Expr)
  | .number cs, trees => (readNumeral? cs).map (· :: trees)
  | .minusOne, trees => some (.num (-1) :: trees)
  | .name x, trees => some (.var x :: trees)
  | .func f, a :: trees => some (.app f a :: trees)
  | .op op, b :: a :: trees => some (combine op a b :: trees)
  | _, _ => none

/-- The finished trees, what waits, and whether the last lexeme completed an operand. -/
structure Machine where
  trees : List Expr
  pending : List Pending
  afterOperand : Bool

namespace Machine

/-- Let the waiting operators act that a new operator calls for. -/
def release? (new : Operator) : List Pending → List Expr → Option (List Pending × List Expr)
  | .op op :: pending, trees =>
    if calls new op then (act? (.op op) trees).bind (release? new pending)
    else some (.op op :: pending, trees)
  | pending, trees => some (pending, trees)

/-- Read a binary operator. -/
def binary? (m : Machine) (op : Operator) : Option Machine :=
  (release? op m.pending m.trees).map fun r => ⟨r.2, .op op :: r.1, false⟩

/-- Read an operator, which is a sign where an operand is due. -/
def operator? (m : Machine) (op : Operator) : Option Machine :=
  if m.afterOperand then m.binary? op
  else match op with
    | .sub => some ⟨.num (-1) :: m.trees, .op .mul :: m.pending, m.afterOperand⟩
    | .add => some m
    | _ => m.binary? op

/-- Let everything act that waits inside the innermost open parenthesis. -/
def closeGroup? : List Pending → List Expr → Option (List Pending × List Expr)
  | [], _ => none
  | .paren :: pending, trees => some (pending, trees)
  | .func f :: pending, trees => (act? (.func f) trees).bind (closeGroup? pending)
  | .op op :: pending, trees => (act? (.op op) trees).bind (closeGroup? pending)

/-- Let a function act that waits right in front. -/
def applyFunc? : List Pending × List Expr → Option Machine
  | (.func f :: pending, trees) => (act? (.func f) trees).map (⟨·, pending, true⟩)
  | (pending, trees) => some ⟨trees, pending, true⟩

/-- Read one lexeme where no multiplication is implied. -/
def readPlain? (m : Machine) : Lexeme → Option Machine
  | .number cs => (act? (.number cs) m.trees).map (⟨·, m.pending, true⟩)
  | .name x => (act? (.name x) m.trees).map (⟨·, m.pending, true⟩)
  | .func f => some ⟨m.trees, .func f :: m.pending, false⟩
  | .leftParen => some ⟨m.trees, .paren :: m.pending, false⟩
  | .rightParen => (closeGroup? m.pending m.trees).bind applyFunc?
  | .op op => m.operator? op

/-- Read one lexeme, after the multiplication that its neighbourhood may imply. -/
def read? (m : Machine) (l : Lexeme) : Option Machine :=
  (if m.afterOperand && l.startsOperand then m.binary? .mul else some m).bind (readPlain? · l)

/-- Let everything act that still waits; a single tree must be left. -/
def finish? : List Pending → List Expr → Option Expr
  | [], [e] => some e
  | [], _ => none
  | .paren :: _, _ => none
  | .func f :: pending, trees => (act? (.func f) trees).bind (finish? pending)
  | .op op :: pending, trees => (act? (.op op) trees).bind (finish? pending)

/-- Read lexemes to their end. -/
def run? (m : Machine) : List Lexeme → Option Expr
  | [] => finish? m.pending m.trees
  | l :: ls => (m.read? l).bind (run? · ls)

end Machine

/-! ### The scan, step by step -/

namespace ReversePolish

open Machine

/-- The trees that output items build, the last item first. -/
def built? : List (Located Item) → Option (List Expr)
  | [] => some []
  | item :: output => (built? output).bind (act? item.value)

/-- Building up trees is what the abstract machine does, apart from the fault. -/
theorem toOption_apply (item : Located Item) (trees : List Expr) :
    (apply trees item).toOption = act? item.value trees := by
  obtain ⟨item, span⟩ := item
  cases item with
  | number cs =>
    cases h : readNumeral? cs <;> simp [apply, act?, h, Except.toOption]
  | minusOne => rfl
  | name x => rfl
  | func f => cases trees <;> rfl
  | op op => rcases trees with _ | ⟨_, _ | ⟨_, _⟩⟩ <;> rfl

theorem toOption_bind {ε α β : Type} (x : Except ε α) (f : α → Except ε β) :
    (x >>= f).toOption = x.toOption.bind fun a => (f a).toOption := by
  cases x <;> rfl

@[simp] theorem toOption_ok {ε α : Type} (a : α) :
    (Except.ok a : Except ε α).toOption = some a := rfl

@[simp] theorem toOption_pure {ε α : Type} (a : α) :
    (pure a : Except ε α).toOption = some a := rfl

@[simp] theorem toOption_error {ε α : Type} (fault : ε) :
    (Except.error fault : Except ε α).toOption = none := rfl

/-- Building from the output is a fold of the machine over it, last item first. -/
theorem toOption_foldlM_apply (output : List (Located Item)) :
    (output.reverse.foldlM apply []).toOption = built? output := by
  rw [List.foldlM_reverse]
  induction output with
  | nil => rfl
  | cons item output ih =>
    rw [List.foldrM_cons, toOption_bind, ih, built?]
    simp only [toOption_apply]

/-- The first token that is no lexeme makes the whole fail, wherever the fault is. -/
theorem toOption_mapM_cons (t : Token) (ts : List Token) :
    ((t :: ts).mapM Token.lexeme).toOption =
      t.lexeme.toOption.bind fun l => (ts.mapM Token.lexeme).toOption.map (l :: ·) := by
  rw [List.mapM_cons, toOption_bind]
  refine Option.bind_congr fun l _ => ?_
  rw [toOption_bind, Option.map_eq_bind]
  rfl

/-- The machine in the state that a state of the scan amounts to, if its output builds trees. -/
def State.machine? (s : State) : Option Machine :=
  (built? s.output).map fun trees => ⟨trees, s.pending.map Located.value, s.afterOperand⟩

variable (pending : List (Located Pending)) (output : List (Located Item))

/-- Releasing operators to the output and building from it is releasing them on the machine. -/
theorem built?_release (new : Operator) :
    (built? (release new pending output).2).map
        (((release new pending output).1.map Located.value, ·)) =
      (built? output).bind (release? new (pending.map Located.value)) := by
  induction pending generalizing output with
  | nil => cases h : built? output <;> simp [release, release?, h]
  | cons p pending ih =>
    obtain ⟨p, span⟩ := p
    cases p with
    | op op =>
      by_cases h : calls new op
      · simp only [release, h, if_true, ih, built?, List.map_cons, Option.bind_assoc, release?]
      · cases hb : built? output <;> simp [release, release?, h, hb]
    | func f => cases h : built? output <;> simp [release, release?, h]
    | paren => cases h : built? output <;> simp [release, release?, h]

/-- Closing a group in the output and building from it is closing it on the machine. -/
theorem built?_closeGroup :
    ((closeGroup pending output).bind fun r =>
        (built? r.2).map ((r.1.map Located.value, ·))) =
      (built? output).bind (closeGroup? (pending.map Located.value)) := by
  induction pending generalizing output with
  | nil => cases h : built? output <;> simp [closeGroup, closeGroup?]
  | cons p pending ih =>
    obtain ⟨p, span⟩ := p
    cases p with
    | op op => simp only [closeGroup, ih, built?, List.map_cons, Option.bind_assoc, closeGroup?]
    | func f => simp only [closeGroup, ih, built?, List.map_cons, Option.bind_assoc, closeGroup?]
    | paren => cases h : built? output <;> simp [closeGroup, closeGroup?, h]

/-- An operator is read by the machine as by the reordering. -/
theorem machine?_binary (s : State) (op : Operator) (span : Span) :
    (s.binary op span).machine? = s.machine?.bind (·.binary? op) := by
  have h := built?_release s.pending s.output op
  calc (s.binary op span).machine?
      = ((built? (release op s.pending s.output).2).map
          (((release op s.pending s.output).1.map Located.value, ·))).map
          fun r => ⟨r.2, .op op :: r.1, false⟩ := by
        rw [Option.map_map]
        rfl
    _ = s.machine?.bind (·.binary? op) := by
        rw [h, State.machine?, Option.map_bind, Option.bind_map]
        rfl

theorem machine?_bind {β : Type} (s : State) (f : Machine → Option β) :
    s.machine?.bind f = (built? s.output).bind fun trees =>
      f ⟨trees, s.pending.map Located.value, s.afterOperand⟩ := by
  rw [State.machine?, Option.bind_map]
  rfl

/-- An operator, be it a sign or not, is read by the machine as by the reordering. -/
theorem machine?_operator (s : State) (op : Operator) (span : Span) :
    (s.operator op span).machine? = s.machine?.bind (·.operator? op) := by
  have h := machine?_binary s op span
  rw [machine?_bind] at h ⊢
  obtain ⟨output, pending, after⟩ := s
  cases after with
  | true => exact h
  | false =>
    cases op with
    | add => exact Option.map_eq_bind
    | sub => exact Option.map_bind.trans rfl
    | mul => exact h
    | div => exact h
    | pow => exact h

/-- A closed group is an operand, and so is a function applied to it. -/
theorem machine?_close (s : State) (span : Span) :
    (s.close span).toOption.bind State.machine? =
      s.machine?.bind fun m => (closeGroup? m.pending m.trees).bind applyFunc? := by
  rw [machine?_bind, ← Option.bind_assoc, ← built?_closeGroup, State.close]
  cases closeGroup s.pending s.output with
  | none => rfl
  | some r =>
    obtain ⟨pending, output⟩ := r
    match pending with
    | [] => cases h : built? output <;> simp [State.machine?, Except.toOption, h, applyFunc?]
    | ⟨.paren, _⟩ :: _ | ⟨.op _, _⟩ :: _ =>
      cases h : built? output <;> simp [State.machine?, Except.toOption, h, applyFunc?]
    | ⟨.func f, _⟩ :: _ =>
      cases h : built? output <;> simp [State.machine?, Except.toOption, h, built?, applyFunc?]

/-- An implied multiplication is put in by the machine where the reordering puts it in. -/
theorem machine?_implied (s : State) (l : Located Lexeme) :
    (if s.afterOperand && l.value.startsOperand then s.binary .mul l.span else s).machine? =
      s.machine?.bind fun m =>
        if m.afterOperand && l.value.startsOperand then m.binary? .mul else some m := by
  rw [machine?_bind]
  dsimp only
  split
  · rw [machine?_binary, machine?_bind]
  · exact Option.map_eq_bind

/-- One lexeme is read by the machine as by the reordering, apart from the fault. -/
theorem machine?_read (s : State) (l : Located Lexeme) :
    (s.read l).toOption.bind State.machine? = s.machine?.bind (·.read? l.value) := by
  have h := machine?_implied s l
  simp only [State.read, Machine.read?]
  rw [← Option.bind_assoc, ← h]
  generalize (if s.afterOperand && l.value.startsOperand then s.binary .mul l.span else s) = s'
  obtain ⟨l, span⟩ := l
  cases l with
  | rightParen => exact machine?_close s' span
  | op op => exact machine?_operator s' op span
  | _ =>
    rw [machine?_bind]
    first
    | exact Option.map_bind
    | exact Option.map_eq_bind

/-- The end of the formula is the same for the machine. -/
theorem toOption_build_flush :
    ((flush pending output).toOption.bind fun items => (build items).toOption) =
      (built? output).bind (finish? (pending.map Located.value)) := by
  induction pending generalizing output with
  | nil =>
    rw [← toOption_foldlM_apply, flush, Except.toOption, Option.bind_some, build, toOption_bind]
    refine Option.bind_congr fun trees _ => ?_
    match trees with
    | [] | [_] | _ :: _ :: _ => rfl
  | cons p pending ih =>
    obtain ⟨p, span⟩ := p
    cases p with
    | op op => simp only [flush, ih, built?, List.map_cons, Option.bind_assoc, finish?]
    | func f => simp only [flush, ih, built?, List.map_cons, Option.bind_assoc, finish?]
    | paren => cases h : built? output <;> simp [flush, finish?, Except.toOption]

/-- Scanning tokens and then building is what the machine does with their lexemes. -/
theorem toOption_build_scan (s : State) (ts : List Token) :
    ((ts.foldlM (fun (s : State) (t : Token) => do s.read (← t.lexeme)) s).toOption.bind fun s =>
        (flush s.pending s.output).toOption.bind fun items => (build items).toOption) =
      (ts.mapM Token.lexeme).toOption.bind fun ls =>
        s.machine?.bind (·.run? (ls.map Located.value)) := by
  induction ts generalizing s with
  | nil =>
    refine (toOption_build_flush s.pending s.output).trans ?_
    exact (machine?_bind s fun m => finish? m.pending m.trees).symm
  | cons t ts ih =>
    rw [List.foldlM_cons, toOption_mapM_cons, toOption_bind, toOption_bind, Option.bind_assoc,
      Option.bind_assoc, Option.bind_assoc]
    refine Option.bind_congr fun l _ => ?_
    simp only [ih, Option.bind_map, Function.comp_def, List.map_cons, run?, ← Option.bind_assoc,
      ← machine?_read]
    cases s.read l with
    | error fault => simp
    | ok s' => rfl

/-- Reading tokens is classifying them and running the machine. -/
theorem toOption_build_ofTokens (ts : List Token) :
    (do build (← ofTokens ts)).toOption =
      (ts.mapM Token.lexeme).toOption.bind fun ls =>
        Machine.run? ⟨[], [], false⟩ (ls.map Located.value) := by
  have h := toOption_build_scan .initial ts
  rw [toOption_bind, ofTokens, toOption_bind, Option.bind_assoc]
  exact h

end ReversePolish

end Parsing

end ComputerAlgebra
