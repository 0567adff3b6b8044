import FstWaveDemo.LR.Tables

/-! # The LALR(1) construction

The tables that bison builds from a grammar (`LR.bison`): the LR(0) automaton,
the LALR(1) lookaheads by the relations *reads*, *includes* and *lookback* on the
nonterminal transitions, the resolution of conflicts (first by precedence, then
shift over reduce, then the earlier rule), and default reductions.

Symbols are held by their numbers (`LR.Symbol.number`).
-/

namespace LR

variable {T N : Type} [Coded T] [Coded N]

namespace Bison

/-- The symbol number belongs to a nonterminal. -/
def isNonterm (symbol : Nat) : Bool := Nat.beq (Nat.land symbol 1) 1

/-- An item: a rule, the position of its dot, and the symbols after the dot. -/
structure Item where
  rule : Nat
  dot : Nat
  rest : List Nat

/-- A number for the item, by which sets of items are compared. -/
def Item.number (item : Item) : Nat := 64 * item.rule + item.dot

/-- The initial items of the rules of one nonterminal, the rules being counted
from `rule` on. -/
def initialItems (name : Nat) : Nat → List (Nat × List Nat) → List Item
  | _, [] => []
  | rule, (lhs, rhs) :: rules =>
      if Nat.beq lhs name then ⟨rule, 0, rhs⟩ :: initialItems name (rule + 1) rules
      else initialItems name (rule + 1) rules

/-- The nonterminals right after the dot of some items. -/
def dotted : List Item → List Nat
  | [] => []
  | item :: items =>
      match item.rest with
      | [] => dotted items
      | symbol :: _ => if isNonterm symbol then symbol / 2 :: dotted items else dotted items

/-- The initial items that closure adds for the nonterminals `names`. -/
def closeNames (initial : Dict (List Item)) : (fuel : Nat) → (names : List Nat) → (seen : Nat) →
    List Item
  | 0, _, _ => []
  | _, [], _ => []
  | fuel + 1, name :: names, seen =>
      if has seen name then closeNames initial fuel names seen else
      match initial.find? name with
      | some items =>
          items ++ closeNames initial fuel (dotted items ++ names) (Nat.lor seen (bit name))
      | none => closeNames initial fuel names seen

/-- File an item under the symbol it advances over. -/
def file (symbol : Nat) (item : Item) : List (Nat × List Item) → List (Nat × List Item)
  | [] => [(symbol, [item])]
  | (other, items) :: groups =>
      if Nat.beq symbol other then (other, item :: items) :: groups
      else (other, items) :: file symbol item groups

/-- The kernels of the successors of an item set, by symbol. -/
def successors : List Item → List (Nat × List Item)
  | [] => []
  | item :: items =>
      match item.rest with
      | [] => successors items
      | symbol :: rest => file symbol ⟨item.rule, item.dot + 1, rest⟩ (successors items)

/-- A state of the LR(0) automaton. -/
structure State where
  kernel : List Item
  closed : List Item
  transitions : List (Nat × Nat)

/-- The set of items as a mask. -/
def itemSet (items : List Item) : Nat := orAll (fun item => bit item.number) items

/-- Number the successor kernels of a state: a kernel seen before keeps its
number, a fresh one takes the next. The result has the transitions, the fresh
kernels, the next free number and the enlarged index. -/
def numberKernels : List (Nat × List Item) → (next : Nat) → Dict Nat →
    List (Nat × Nat) × List (List Item) × Nat × Dict Nat
  | [], next, index => ([], [], next, index)
  | (symbol, kernel) :: groups, next, index =>
      match index.find? (itemSet kernel) with
      | some state =>
          match numberKernels groups next index with
          | (transitions, fresh, next, index) =>
              ((symbol, state) :: transitions, fresh, next, index)
      | none =>
          match numberKernels groups (next + 1) (index.alter (itemSet kernel) fun _ => next) with
          | (transitions, fresh, last, index) =>
              ((symbol, next) :: transitions, kernel :: fresh, last, index)

/-- The states reachable from the queued kernels, in the order of their
numbers. -/
def explore (initial : Dict (List Item)) : (fuel : Nat) → (queue : List (List Item)) →
    (next : Nat) → Dict Nat → List State
  | 0, _, _, _ => []
  | _, [], _, _ => []
  | fuel + 1, kernel :: queue, next, index =>
      let closed := kernel ++ closeNames initial 1000 (dotted kernel) 0
      match numberKernels (successors closed) next index with
      | (transitions, fresh, next, index) =>
          ⟨kernel, closed, transitions⟩ :: explore initial fuel (queue ++ fresh) next index

/-- Repeat a step until `stable` accepts the old and the new value. -/
def iterate {α : Type} (step : α → α) (stable : α → α → Bool) : (fuel : Nat) → α → α
  | 0, value => value
  | fuel + 1, value =>
      if stable value (step value) then value else iterate step stable fuel (step value)

/-- Every symbol is a nullable nonterminal. -/
def allNullable (nullable : Nat) : List Nat → Bool
  | [] => true
  | symbol :: rest =>
      isNonterm symbol && has nullable (symbol / 2) && allNullable nullable rest

/-- The nonterminals that derive the empty word. -/
def nullableNames (rules : List (Nat × List Nat)) : Nat :=
  iterate
    (fun mask => Nat.lor mask (orAll (fun (lhs, rhs) =>
      if allNullable mask rhs then bit lhs else 0) rules))
    Nat.beq 100 0

/-- The terminals that words of the given symbols may begin with. -/
def firstSymbols (nullable : Nat) (first : Dict Nat) : List Nat → Nat
  | [] => 0
  | symbol :: rest =>
      if isNonterm symbol then
        let own := (first.find? (symbol / 2)).getD 0
        if has nullable (symbol / 2) then Nat.lor own (firstSymbols nullable first rest) else own
      else bit (symbol / 2)

/-- Two trees of masks with the same keys hold the same masks. -/
def sameMasks : Dict Nat → Dict Nat → Bool
  | .node left _ mask right, .node left' _ mask' right' =>
      Nat.beq mask mask' && sameMasks left left' && sameMasks right right'
  | _, _ => true

/-- The terminals that words of each nonterminal may begin with. -/
def firstNames (nullable : Nat) (initial : Dict (List Item)) : Dict Nat :=
  iterate
    (fun first => initial.map fun _ items =>
      orAll (fun item => firstSymbols nullable first item.rest) items)
    sameMasks 100 (initial.map fun _ _ => 0)

/-- The nonterminal transitions out of a state: nonterminal, target, and a set of
terminals. -/
abbrev Transitions := List (Nat × Goto)

/-- The terminals among the symbols of some transitions. -/
def terminalMask : List (Nat × Nat) → Nat
  | [] => 0
  | (symbol, _) :: rest =>
      if isNonterm symbol then terminalMask rest else Nat.lor (bit (symbol / 2)) (terminalMask rest)

/-- The nonterminal transitions of a state with the terminals that can be read
directly after each. -/
def directReads (states : Dict State) : List (Nat × Nat) → Transitions
  | [] => []
  | (symbol, target) :: rest =>
      if isNonterm symbol then
        match states.find? target with
        | some state =>
            (symbol / 2, ⟨target, terminalMask state.transitions⟩) :: directReads states rest
        | none => directReads states rest
      else directReads states rest

/-- Replace the terminals of every transition. -/
def refill (f : Nat → Goto → Nat) : Transitions → Transitions
  | [] => []
  | (name, goto) :: rest => (name, ⟨goto.target, f name goto⟩) :: refill f rest

/-- The same terminals at every transition. -/
def sameTransitions : Transitions → Transitions → Bool
  | (_, goto) :: rest, (_, goto') :: rest' =>
      Nat.beq goto.follow goto'.follow && sameTransitions rest rest'
  | _, _ => true

/-- The same terminals at every transition of every state. -/
def sameFollows : Dict Transitions → Dict Transitions → Bool
  | .node left _ transitions right, .node left' _ transitions' right' =>
      sameTransitions transitions transitions' && sameFollows left left' &&
        sameFollows right right'
  | _, _ => true

/-- One round of *reads*: after the transition, a nullable nonterminal may be
passed over. -/
def readsRound (nullable : Nat) (reads : Dict Transitions) : Dict Transitions :=
  reads.map fun _ transitions => refill (fun _ goto =>
    Nat.lor goto.follow (orAll
      (fun (name, next) => if has nullable name then next.follow else 0)
      ((reads.find? goto.target).getD []))) transitions

/-- What a walk along the rules of a nonterminal transition (`origin`, `name`)
finds in a state. With `child`, the transition of that state on `child` *includes*
the walked transition; without, the rule is finished there, and its reduction
*looks back* to the walked transition. -/
structure Finding where
  state : Nat
  child : Option Nat
  rule : Nat
  origin : Nat
  name : Nat

/-- Walk the symbols of a rule for the transition of state `origin` on `name`. -/
def walk (states : Dict State) (nullable origin name rule : Nat) : (state : Nat) → List Nat →
    List Finding
  | state, [] => [⟨state, none, rule, origin, name⟩]
  | state, symbol :: rest =>
      match (states.find? state).bind fun row => assoc symbol row.transitions with
      | none => []
      | some next =>
          if isNonterm symbol && allNullable nullable rest then
            ⟨state, some (symbol / 2), rule, origin, name⟩ ::
              walk states nullable origin name rule next rest
          else walk states nullable origin name rule next rest

/-- Walk the rules of every nonterminal transition. -/
def walkAll (states : Dict State) (nullable : Nat) (initial : Dict (List Item))
    (reads : Dict Transitions) : List Finding :=
  reads.toList.flatMap fun (origin, transitions) =>
    transitions.flatMap fun (name, _) =>
      ((initial.find? name).getD []).flatMap fun item =>
        walk states nullable origin name item.rule origin item.rest

/-- The findings by state, for the states from `first` on. -/
def fileFindings : (depth first count : Nat) → List Finding → Dict (List Finding)
  | 0, _, _, _ => .leaf
  | depth + 1, first, count, findings =>
      if Nat.beq count 0 then .leaf else
      let middle := first + count / 2
      .node (fileFindings depth first (count / 2) (findings.filter fun f => Nat.blt f.state middle))
        middle (findings.filter fun f => Nat.beq f.state middle)
        (fileFindings depth (middle + 1) (count - count / 2 - 1)
          (findings.filter fun f => Nat.blt middle f.state))

/-- The terminals at the transition of a state on a nonterminal. -/
def followOf (follows : Dict Transitions) (state name : Nat) : Nat :=
  match (follows.find? state).bind (assoc name) with
  | some goto => goto.follow
  | none => 0

/-- One round of *includes*. -/
def includesRound (findings : Dict (List Finding)) (follows : Dict Transitions) :
    Dict Transitions :=
  follows.map fun state transitions =>
    let included := ((findings.find? state).getD []).filter fun f => f.child.isSome
    refill (fun name goto => Nat.lor goto.follow (orAll
      (fun f =>
        match f.child with
        | some child => if Nat.beq child name then followOf follows f.origin f.name else 0
        | none => 0) included)) transitions

/-- The lookaheads of a rule that is finished in a state. -/
def lookaheadsOf (follows : Dict Transitions) (findings : List Finding) (rule : Nat) : Nat :=
  orAll (fun f =>
    match f.child with
    | some _ => 0
    | none => if Nat.beq f.rule rule then followOf follows f.origin f.name else 0) findings

/-- The reductions of a state with their lookaheads, in the order of the rules. -/
def reductions (lookaheads : Nat → Nat) : List Item → List (Nat × Nat)
  | [] => []
  | item :: items =>
      match item.rest with
      | [] => insert (lookaheads item.rule, item.rule) (reductions lookaheads items)
      | _ :: _ => reductions lookaheads items
where
  insert (entry : Nat × Nat) : List (Nat × Nat) → List (Nat × Nat)
    | [] => [entry]
    | other :: rest =>
        if Nat.ble entry.2 other.2 then entry :: other :: rest else other :: insert entry rest

/-- A conflict between shifting `a` and reducing a rule, as precedence leaves it:
the reduction's lookaheads, the shifts given up, and the explicit errors. -/
structure Resolution where
  lookaheads : Nat
  dropped : Nat
  errors : Nat

/-- Settle by precedence the conflicts of one reduction with the shifts. -/
def settle (level : Nat → Option (Nat × Assoc)) (ruleLevel : Nat) : List (Nat × Nat) →
    Resolution → Resolution
  | [], resolution => resolution
  | (a, _) :: shifts, resolution =>
      settle level ruleLevel shifts <|
        if has resolution.lookaheads a then
          match level a with
          | none => resolution
          | some (tokenLevel, associativity) =>
              if Nat.blt tokenLevel ruleLevel then
                { resolution with dropped := Nat.lor resolution.dropped (bit a) }
              else if Nat.blt ruleLevel tokenLevel then
                { resolution with lookaheads := without resolution.lookaheads (bit a) }
              else
                match associativity with
                | .right => { resolution with lookaheads := without resolution.lookaheads (bit a) }
                | .left => { resolution with dropped := Nat.lor resolution.dropped (bit a) }
                | .nonassoc =>
                    { lookaheads := without resolution.lookaheads (bit a)
                      dropped := Nat.lor resolution.dropped (bit a)
                      errors := Nat.lor resolution.errors (bit a) }
        else resolution

/-- Settle by precedence all conflicts of a state: the shifts and reductions that
remain, and the explicit errors. -/
def settleAll (level : Nat → Option (Nat × Assoc)) (ruleLevel : Nat → Option Nat) :
    List (Nat × Nat) → (shifts : List (Nat × Nat)) → (errors : Nat) →
    List (Nat × Nat) × List (Nat × Nat) × Nat
  | [], shifts, errors => ([], shifts, errors)
  | (mask, rule) :: rest, shifts, errors =>
      match ruleLevel rule with
      | none =>
          match settleAll level ruleLevel rest shifts errors with
          | (reduces, shifts, errors) => ((mask, rule) :: reduces, shifts, errors)
      | some own =>
          let resolution := settle level own shifts ⟨mask, 0, errors⟩
          match settleAll level ruleLevel rest
              (shifts.filter fun shift => !has resolution.dropped shift.1) resolution.errors with
          | (reduces, shifts, errors) => ((resolution.lookaheads, rule) :: reduces, shifts, errors)

/-- Keep of every reduction the lookaheads not taken by a shift or an earlier
rule. -/
def unshadow : (taken : Nat) → List (Nat × Nat) → List (Nat × Nat)
  | _, [] => []
  | taken, (mask, rule) :: rest =>
      (without mask taken, rule) :: unshadow (Nat.lor taken mask) rest

/-- The number of elements of a mask below `bound`. -/
def size (mask : Nat) : (bound : Nat) → Nat
  | 0 => 0
  | bound + 1 => if has mask bound then size mask bound + 1 else size mask bound

/-- The most frequent reduction, the earliest one among equals. -/
def mostCommon (terminals : Nat) : List (Nat × Nat) → Option (Nat × Nat)
  | [] => none
  | (mask, rule) :: rest =>
      match mostCommon terminals rest with
      | none => if Nat.beq mask 0 then none else some (size mask terminals, rule)
      | some (count, other) =>
          if Nat.ble count (size mask terminals) then some (size mask terminals, rule)
          else some (count, other)

/-- The row of a state. A state with one reduction and no terminal transition
takes that reduction by default; otherwise the most common reduction is the
default, if there is a reduction at all. -/
def makeRow (g : Grammar T N) (level : Nat → Option (Nat × Assoc))
    (ruleLevel : Nat → Option Nat) (lookaheads : Nat → Nat) (gotos : Transitions)
    (state : State) : Row :=
  let kernel := state.kernel.map fun item => (item.rule, item.dot)
  let shifts := (state.transitions.filter fun transition => !isNonterm transition.1).map
    fun transition => (transition.1 / 2, transition.2)
  match reductions lookaheads state.closed with
  | [] => ⟨kernel, shifts, gotos, [], 0, none⟩
  | entry :: entries =>
      if shifts.isEmpty && entries.isEmpty then ⟨kernel, [], gotos, [], 0, some entry.2⟩
      else
        match settleAll level ruleLevel (entry :: entries) shifts 0 with
        | (reduces, shifts, errors) =>
            let reduces := unshadow
              (Nat.lor errors (orAll (fun shift => bit shift.1) shifts)) reduces
            match mostCommon g.terminals reduces with
            | none => ⟨kernel, shifts, gotos, [], 0, none⟩
            | some (_, rule) =>
                ⟨kernel, shifts, gotos,
                  reduces.filter fun reduce =>
                    !Nat.beq reduce.2 rule && !Nat.beq reduce.1 0, errors, some rule⟩

/-- The precedence level of a terminal. -/
def tokenLevel : List (T × Nat × Assoc) → Nat → Option (Nat × Assoc)
  | [], _ => none
  | (kind, level) :: rest, a => if Nat.beq (code kind) a then some level else tokenLevel rest a

/-- The last terminal of a right side. -/
def lastTerminal : List (Symbol T N) → Option T
  | [] => none
  | symbol :: rest =>
      match lastTerminal rest, symbol with
      | some kind, _ => some kind
      | none, .term kind => some kind
      | none, .nonterm _ => none

/-- The precedence level of a rule: that of its `%prec` token, or else of its
last terminal. -/
def ruleLevel (g : Grammar T N) (rule : Nat) : Option Nat :=
  match g.rules[rule]? with
  | none => none
  | some r =>
      match r.prec.or (lastTerminal r.rhs) with
      | none => none
      | some kind => (tokenLevel g.prec (code kind)).map Prod.fst

/-- The accepting state: the one whose kernel is the finished start rule. -/
def acceptingState : (number : Nat) → List State → Nat
  | number, [] => number
  | number, state :: states =>
      if state.kernel.any fun item => Nat.beq item.rule 0 && item.rest.isEmpty then number
      else acceptingState (number + 1) states

end Bison

open Bison in
/-- The tables bison builds from a grammar. -/
def bison (g : Grammar T N) : Tables :=
  let rules := g.rules.map fun rule => (code rule.lhs, rule.rhs.map Symbol.number)
  let initial := Dict.ofList ((List.range g.nonterminals).map fun name =>
    initialItems name 0 rules)
  let nullable := nullableNames rules
  let start := match rules with
    | [] => []
    | (_, rhs) :: _ => [⟨0, 0, rhs⟩]
  let listed := explore initial 10000 [start] 1 (Dict.leaf.alter (itemSet start) fun _ => 0)
  let states := Dict.ofList listed
  let reads := iterate (readsRound nullable) sameFollows 100
    (states.map fun _ state => directReads states state.transitions)
  let count := listed.length
  let findings := fileFindings (count.log2 + 1) 0 count (walkAll states nullable initial reads)
  let follows := iterate (includesRound findings) sameFollows 100 reads
  let rows := states.map fun number state =>
    makeRow g (tokenLevel g.prec) (ruleLevel g)
      (lookaheadsOf follows ((findings.find? number).getD [])) ((follows.find? number).getD [])
      state
  ⟨rows, acceptingState 0 listed, firstNames nullable initial, nullable⟩

end LR
