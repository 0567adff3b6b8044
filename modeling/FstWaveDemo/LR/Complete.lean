import FstWaveDemo.LR.Parser

/-! # Completeness of checked tables

A conflict filter (`LR.Filter`) names the reductions that conflict resolution
takes away: by the context an item set was entered with, the rule, and the
lookahead. `LR.Reduces` and `LR.Derives` are derivations that respect a filter,
annotated with the token that follows. Tables that pass `LR.validate` run every
such derivation (`LR.Reduces.runs`), so the parser accepts every sentence that
has one (`LR.accepts_of_derives`).
-/

namespace LR

variable {T N V W : Type} [Coded T] [Coded N]

/-- The lookaheads on which conflict resolution takes a rule away, given the
kernel item (rule and dot) of the state in which the rule begins. -/
abbrev Filter := Nat × Nat → Nat → Nat

/-- The kind of the first token of a word, or of the token after it. -/
def peek (word : List (Token T W)) (next : T) : T :=
  match word with
  | [] => next
  | token :: _ => token.kind

section Derivations

variable (g : Grammar T N) (filter : Filter) (sem : Actions W)

mutual

/-- `Reduces context name word next value`: the nonterminal derives the word with
the given value, when the token `next` follows, in a state entered with the
kernel item `context`. -/
inductive Reduces : Nat × Nat → N → List (Token T W) → T → W → Prop
  | rule {context : Nat × Nat} {rule : Nat} {r : Rule T N} {word : List (Token T W)} {next : T}
      {values : List W} {value : W} (numbered : g.rules[rule]? = some r)
      (body : Derives rule 0 context r.rhs word next values)
      (kept : has (filter context rule) (code next) = false)
      (evaluated : sem rule values = some value) : Reduces context r.lhs word next value

/-- `Derives rule dot context symbols word next values`: the symbols of the rule
after the dot derive the word with the given values. -/
inductive Derives : Nat → Nat → Nat × Nat → List (Symbol T N) → List (Token T W) → T → List W →
    Prop
  | nil {rule dot : Nat} {context : Nat × Nat} {next : T} : Derives rule dot context [] [] next []
  | term {rule dot : Nat} {context : Nat × Nat} {token : Token T W} {symbols : List (Symbol T N)}
      {word : List (Token T W)} {next : T} {values : List W}
      (rest : Derives rule (dot + 1) (rule, dot + 1) symbols word next values) :
      Derives rule dot context (.term token.kind :: symbols) (token :: word) next
        (token.val :: values)
  | nonterm {rule dot : Nat} {context : Nat × Nat} {name : N} {symbols : List (Symbol T N)}
      {first second : List (Token T W)} {next : T} {value : W} {values : List W}
      (head : Reduces context name first (peek second next) value)
      (rest : Derives rule (dot + 1) (rule, dot + 1) symbols second next values) :
      Derives rule dot context (.nonterm name :: symbols) (first ++ second) next (value :: values)

end

end Derivations

/-- The lookaheads among `follow` on which the listed and default reductions of a
row do not reduce the given rule. -/
def lostAmong (rule : Nat) (defaultRule : Option Nat) : (follow : Nat) → List (Nat × Nat) → Nat
  | follow, [] =>
      match defaultRule with
      | some other => if Nat.beq other rule then 0 else follow
      | none => follow
  | follow, (mask, other) :: rest =>
      if Nat.beq other rule then lostAmong rule defaultRule (without follow mask) rest
      else Nat.lor (Nat.land follow mask) (lostAmong rule defaultRule (without follow mask) rest)

namespace Row

/-- The lookaheads on which the row shifts or fails outright. -/
def taken (row : Row) : Nat := Nat.lor (orAll (fun shift => bit shift.1) row.shifts) row.errors

/-- The lookaheads among `follow` on which the row does not reduce the rule. -/
def lost (row : Row) (rule follow : Nat) : Nat :=
  Nat.lor (Nat.land follow row.taken)
    (lostAmong rule row.defaultRule (without follow row.taken) row.reduces)

end Row

theorem assoc_eq_none {α : Type} {a : Nat} {entries : List (Nat × α)}
    (absent : has (orAll (fun entry => bit entry.1) entries) a = false) :
    assoc a entries = none := by
  induction entries with
  | nil => rfl
  | cons entry rest ih =>
      rw [orAll, has_lor, has_bit, Bool.or_eq_false_iff] at absent
      have other : ¬ Nat.beq a entry.1 = true := fun same =>
        of_decide_eq_false absent.1 (Nat.eq_of_beq_eq_true same).symm
      rw [assoc, if_neg other]
      exact ih absent.2

theorem listedRule_of_not_lost {rule a : Nat} {defaultRule : Option Nat} :
    ∀ {follow : Nat} {reduces : List (Nat × Nat)}, has follow a = true →
      has (lostAmong rule defaultRule follow reduces) a = false →
      (Row.listedRule a reduces).or defaultRule = some rule := by
  intro follow reduces
  induction reduces generalizing follow with
  | nil =>
      intro member kept
      simp only [lostAmong] at kept
      split at kept
      · rename_i other
        split at kept
        · rename_i same
          rw [Nat.eq_of_beq_eq_true same]
          rfl
        · exact absurd (member.symm.trans kept) (by decide)
      · exact absurd (member.symm.trans kept) (by decide)
  | cons entry rest ih =>
      obtain ⟨mask, other⟩ := entry
      intro member kept
      simp only [Row.listedRule]
      by_cases inside : has mask a = true
      · rw [if_pos inside]
        simp only [lostAmong] at kept
        split at kept
        · rename_i same
          rw [Nat.eq_of_beq_eq_true same]
          rfl
        · rw [has_lor, has_land, member, inside] at kept
          exact absurd kept (by simp)
      · rw [if_neg inside]
        have outside : has (without follow mask) a = true := by
          simp [member, Bool.eq_false_iff.mpr inside]
        refine ih outside ?_
        simp only [lostAmong] at kept
        split at kept
        · exact kept
        · rw [has_lor, Bool.or_eq_false_iff] at kept
          exact kept.2

/-- On a lookahead that is not lost, the row reduces the rule. -/
theorem Row.actionOn_of_not_lost {row : Row} {rule follow a : Nat} (member : has follow a = true)
    (kept : has (row.lost rule follow) a = false) : row.actionOn a = .reduce rule := by
  rw [Row.lost, has_lor, Bool.or_eq_false_iff, has_land, member, Bool.true_and] at kept
  obtain ⟨free, kept⟩ := kept
  have open' : has (without follow row.taken) a = true := by simp [member, free]
  have chosen := listedRule_of_not_lost open' kept
  rw [Row.taken, has_lor, Bool.or_eq_false_iff] at free
  rw [Row.actionOn, assoc_eq_none free.1]
  simp only [free.2, Bool.false_eq_true, ↓reduceIte]
  cases listed : Row.listedRule a row.reduces with
  | some other =>
      rw [listed] at chosen
      obtain rfl := Option.some.inj chosen
      rfl
  | none =>
      rw [listed] at chosen
      change row.defaultRule = some rule at chosen
      simp only [chosen]

namespace Tables

/-- The terminals that words of the given symbols may begin with, followed by a
terminal of `follow`. -/
def firstOf (tables : Tables) (follow : Nat) : List (Symbol T N) → Nat
  | [] => follow
  | .term kind :: _ => bit (code kind)
  | .nonterm name :: rest =>
      let own := (tables.first.find? (code name)).getD 0
      if has tables.nullable (code name) then Nat.lor own (firstOf tables follow rest) else own

/-- The row of a state that is not the accepting one. -/
def openRow (tables : Tables) (state : Nat) : Option Row :=
  if Nat.beq state tables.final then none else tables.rows.find? state

/-- The kernel of a state has the item of the rule after its first `dot + 1`
symbols. -/
def holds (tables : Tables) (rule next dot : Nat) : Bool :=
  match tables.rows.find? next with
  | none => false
  | some row => row.kernel.any fun item => Nat.beq item.1 rule && Nat.beq item.2 (dot + 1)

/-- Walk the tables along the symbols of a rule after its dot: every state on the
way has the transition and the advanced item, every nonterminal is followed only
by terminals its transition expects. The result is the row of the last state. -/
def walk (tables : Tables) (rule follow : Nat) :
    (dot state : Nat) → List (Symbol T N) → Option Row
  | _, state, [] => tables.openRow state
  | dot, state, .term kind :: rest =>
      match tables.openRow state with
      | none => none
      | some row =>
          match assoc (code kind) row.shifts with
          | none => none
          | some next =>
              if tables.holds rule next dot then walk tables rule follow (dot + 1) next rest
              else none
  | dot, state, .nonterm name :: rest =>
      match tables.openRow state with
      | none => none
      | some row =>
          match assoc (code name) row.gotos with
          | none => none
          | some goto =>
              if subset (tables.firstOf follow rest) goto.follow &&
                  tables.holds rule goto.target dot then
                walk tables rule follow (dot + 1) goto.target rest
              else none

end Tables

/-- The rules of the nonterminal numbered `name`, with their numbers, counted from
`rule` on. -/
def rulesOf (name : Nat) : (rule : Nat) → List (Rule T N) → List (Nat × Rule T N)
  | _, [] => []
  | rule, r :: rules =>
      if Nat.beq (code r.lhs) name then (rule, r) :: rulesOf name (rule + 1) rules
      else rulesOf name (rule + 1) rules

omit [Coded T] in
theorem mem_rulesOf {rules : List (Rule T N)} {rule : Nat} {r : Rule T N}
    (numbered : rules[rule]? = some r) (first : Nat) :
    (first + rule, r) ∈ rulesOf (code r.lhs) first rules := by
  induction rules generalizing rule first with
  | nil => exact absurd numbered (by simp)
  | cons head rules ih =>
      rw [rulesOf]
      cases rule with
      | zero =>
          obtain rfl : head = r := Option.some.inj numbered
          rw [if_pos (Nat.beq_refl _)]
          exact List.mem_cons_self
      | succ rule =>
          have later := ih numbered (first + 1)
          have shifted : first + 1 + rule = first + (rule + 1) := by omega
          rw [shifted] at later
          split
          · exact List.mem_cons_of_mem _ later
          · exact later

/-- Every rule begins with terminals of its left side, and is nullable only if its
left side is. -/
def validFirst (g : Grammar T N) (tables : Tables) : Bool :=
  g.rules.all fun r =>
    subset (tables.firstOf 0 r.rhs) ((tables.first.find? (code r.lhs)).getD 0) &&
      (has tables.nullable (code r.lhs) || !nullableSymbols r.rhs) &&
      Nat.blt (code r.lhs) g.nonterminals
where
  nullableSymbols : List (Symbol T N) → Bool
    | [] => true
    | .term _ :: _ => false
    | .nonterm name :: rest => has tables.nullable (code name) && nullableSymbols rest

/-- Every rule can be walked from every transition on its left side; of the
lookaheads expected there, the last state takes the rule on all but those that the
filter names, and it takes the rule on none that the filter names. -/
def validRows (g : Grammar T N) (tables : Tables) (filter : Filter) : Bool :=
  let grouped := Dict.ofList ((List.range g.nonterminals).map fun name => rulesOf name 0 g.rules)
  tables.rows.toList.all fun (state, row) =>
    row.gotos.all fun (name, goto) =>
      ((grouped.find? name).getD []).all fun (rule, r) =>
        match tables.walk rule goto.follow 0 state r.rhs with
        | none => false
        | some last => row.kernel.all fun context =>
            subset (last.lost rule goto.follow) (filter context rule) &&
              subset (filter context rule) (last.lost rule (filter context rule))

/-- Every state has been entered with an item. -/
def Tables.entered (tables : Tables) : Bool :=
  tables.rows.toList.all fun (_, row) => !row.kernel.isEmpty

theorem Tables.exists_kernel {tables : Tables} (checked : tables.entered = true) {state : Nat}
    {row : Row} (found : tables.rows.find? state = some row) :
    ∃ context, context ∈ row.kernel := by
  have each := List.all_eq_true.mp checked _ (Dict.mem_toList_of_find? found)
  exact List.exists_mem_of_ne_nil _ (by simpa using each)

/-- The check of the tables. -/
def validate (g : Grammar T N) (tables : Tables) (filter : Filter) : Bool :=
  validFirst g tables && validRows g tables filter

section Checked

variable {g : Grammar T N} {tables : Tables} {filter : Filter} {sem : Actions W}

/-- The walk that the check made for a rule at a transition. -/
theorem walk_of_validate (checked : validate g tables filter = true) {state rule : Nat} {row : Row}
    {r : Rule T N} {goto : Goto} {context : Nat × Nat}
    (found : tables.rows.find? state = some row) (entered : context ∈ row.kernel)
    (numbered : g.rules[rule]? = some r) (going : assoc (code r.lhs) row.gotos = some goto) :
    ∃ last, tables.walk rule goto.follow 0 state r.rhs = some last ∧
      subset (last.lost rule goto.follow) (filter context rule) = true ∧
      subset (filter context rule) (last.lost rule (filter context rule)) = true := by
  rw [validate, Bool.and_eq_true] at checked
  have bounded : code r.lhs < g.nonterminals := by
    have each := List.all_eq_true.mp checked.1 r (List.mem_of_getElem? numbered)
    simp only [Bool.and_eq_true] at each
    exact Nat.le_of_ble_eq_true each.2
  have rows := List.all_eq_true.mp checked.2 _ (Dict.mem_toList_of_find? found)
  have gotos := List.all_eq_true.mp rows _ (mem_of_assoc going)
  have filed : ((Dict.ofList ((List.range g.nonterminals).map fun name =>
      rulesOf name 0 g.rules)).find? (code r.lhs)).getD [] = rulesOf (code r.lhs) 0 g.rules := by
    rw [Dict.find?_ofList, List.getElem?_map, List.getElem?_range bounded]
    rfl
  simp only [filed] at gotos
  have own := List.all_eq_true.mp gotos _ (mem_rulesOf numbered 0)
  simp only [Nat.zero_add] at own
  split at own
  · exact absurd own (by decide)
  · rename_i last walked
    have each := List.all_eq_true.mp own _ entered
    rw [Bool.and_eq_true] at each
    exact ⟨last, walked, each.1, each.2⟩

theorem validFirst_rule (checked : validate g tables filter = true) {rule : Nat} {r : Rule T N}
    (numbered : g.rules[rule]? = some r) :
    subset (tables.firstOf 0 r.rhs) ((tables.first.find? (code r.lhs)).getD 0) = true ∧
      (has tables.nullable (code r.lhs) = true ∨
        validFirst.nullableSymbols tables r.rhs = false) := by
  rw [validate, Bool.and_eq_true] at checked
  have each := List.all_eq_true.mp checked.1 r (List.mem_of_getElem? numbered)
  simp only [Bool.and_eq_true, Bool.or_eq_true, Bool.not_eq_true'] at each
  exact each.1

/-- Beginnings are monotone in what follows. -/
theorem has_firstOf_mono {first second a : Nat} {symbols : List (Symbol T N)}
    (grows : has first a = true → has second a = true)
    (member : has (tables.firstOf first symbols) a = true) :
    has (tables.firstOf second symbols) a = true := by
  induction symbols with
  | nil => exact grows member
  | cons symbol rest ih =>
      cases symbol with
      | term kind => exact member
      | nonterm name =>
          simp only [Tables.firstOf] at member ⊢
          split at member
          · rename_i nullable
            rw [if_pos nullable, has_lor, Bool.or_eq_true]
            rw [has_lor, Bool.or_eq_true] at member
            exact member.imp id ih
          · rename_i solid
            rw [if_neg solid]
            exact member

/-- The check predicts how words of a nonterminal begin. -/
def NameBegins (tables : Tables) (name : N) (word : List (Token T W)) : Prop :=
  (word = [] → has tables.nullable (code name) = true) ∧
    ∀ token rest, word = token :: rest →
      has ((tables.first.find? (code name)).getD 0) (code token.kind) = true

/-- The check predicts how words of a list of symbols begin. -/
def SymbolsBegin (tables : Tables) (symbols : List (Symbol T N)) (word : List (Token T W)) : Prop :=
  (word = [] → validFirst.nullableSymbols tables symbols = true) ∧
    ∀ token rest, word = token :: rest → has (tables.firstOf 0 symbols) (code token.kind) = true

/-- A filtered derivation of an empty word is over nullable symbols, and a nonempty
word begins as the check predicts. -/
theorem Derives.begins (checked : validate g tables filter = true) {rule dot : Nat}
    {context : Nat × Nat} {symbols : List (Symbol T N)} {word : List (Token T W)} {next : T}
    {values : List W} (derived : Derives g filter sem rule dot context symbols word next values) :
    SymbolsBegin tables symbols word := by
  refine Derives.rec (motive_1 := fun _ name word _ _ _ => NameBegins tables name word)
    (motive_2 := fun _ _ _ symbols word _ _ _ => SymbolsBegin tables symbols word)
    ?_ ?_ ?_ ?_ derived
  · intro context rule r word next values value numbered _ _ _ ih
    obtain ⟨starts, empties⟩ := validFirst_rule checked numbered
    constructor
    · intro empty
      rcases empties with nullable | solid
      · exact nullable
      · exact absurd ((ih.1 empty).symm.trans solid) (by decide)
    · intro token rest same
      exact has_of_subset starts (ih.2 token rest same)
  · intro _ _ _ _
    exact ⟨fun _ => rfl, fun _ _ impossible => nomatch impossible⟩
  · intro _ _ _ token symbols word _ _ _ _
    refine ⟨fun impossible => (nomatch impossible), fun other rest same => ?_⟩
    obtain ⟨rfl, rfl⟩ := List.cons.inj same
    simp [Tables.firstOf]
  · intro _ _ _ name symbols first second _ _ _ _ _ ihHead ihRest
    constructor
    · intro empty
      obtain ⟨none, others⟩ := List.append_eq_nil_iff.mp empty
      simp only [validFirst.nullableSymbols, ihHead.1 none, ihRest.1 others, Bool.and_self]
    · intro token rest same
      simp only [Tables.firstOf]
      cases first with
      | nil =>
          rw [if_pos (ihHead.1 rfl), has_lor, ihRest.2 token rest same, Bool.or_true]
      | cons lead others =>
          obtain ⟨rfl, -⟩ := List.cons.inj same
          have own := ihHead.2 _ _ rfl
          split
          · rw [has_lor, own, Bool.true_or]
          · exact own

/-- What follows a prefix of a rule is expected there. -/
theorem Derives.has_firstOf_peek (checked : validate g tables filter = true) {rule dot follow : Nat}
    {context : Nat × Nat} {symbols : List (Symbol T N)} {word : List (Token T W)} {next : T}
    {values : List W} (derived : Derives g filter sem rule dot context symbols word next values)
    (expected : has follow (code next) = true) :
    has (tables.firstOf follow symbols) (code (peek word next)) = true := by
  obtain ⟨empties, starts⟩ := derived.begins checked
  cases word with
  | nil =>
      have nullable := empties rfl
      clear empties starts derived
      induction symbols with
      | nil => exact expected
      | cons symbol rest ih =>
          cases symbol with
          | term kind => exact absurd nullable (by simp [validFirst.nullableSymbols])
          | nonterm name =>
              simp only [validFirst.nullableSymbols, Bool.and_eq_true] at nullable
              simp only [Tables.firstOf, nullable.1, ↓reduceIte, has_lor, ih nullable.2,
                Bool.or_true]
  | cons token rest =>
      exact has_firstOf_mono (fun absurd => by simp at absurd) (starts token rest rfl)

/-- A state that is not accepting takes the reduction its row has for the pending
lookahead. -/
theorem step_reduce (g : Grammar T N) (act : LineActions V) {config : Config T V} {row : Row}
    {rule : Nat} {look : Lexeme T V} {rest : List (Lexeme T V)}
    (pending : config.pending = look :: rest)
    (found : tables.rows.find? (topState config.stack) = some row)
    (open' : topState config.stack ≠ tables.final)
    (chosen : row.actionOn (code look.kind) = .reduce rule) :
    ∃ reading : Config T V, reading.stack = config.stack ∧ reading.pending = look :: rest ∧
      step g tables act config = reduceBy g tables act rule reading := by
  by_cases settled : row.consistent = true
  · have default : row.defaultRule = some rule := by
      have bare := settled
      simp only [Row.consistent, Bool.and_eq_true, List.isEmpty_iff] at bare
      obtain ⟨⟨shifts, reduces⟩, errors⟩ := bare
      have none : has row.errors (code look.kind) = false := by
        rw [Nat.eq_of_beq_eq_true errors, has_zero]
      simp only [Row.actionOn, shifts, assoc, none, reduces, Row.listedRule] at chosen
      cases held : row.defaultRule with
      | none => rw [held] at chosen; exact absurd chosen (by simp)
      | some other => rw [held] at chosen; simpa using chosen
    refine ⟨config, rfl, pending, ?_⟩
    simp only [step, found, open', settled, default, ↓reduceIte]
  · obtain ⟨line, fetched⟩ := config.fetch_eq pending
    refine ⟨⟨config.stack, some look, line, rest⟩, rfl, rfl, ?_⟩
    simp only [step, found, open', settled, fetched, chosen, ↓reduceIte, Bool.false_eq_true]

/-- A state that is not accepting shifts the pending lookahead when its row has a
transition on it. -/
theorem step_shift (g : Grammar T N) (act : LineActions V) {config : Config T V} {row : Row}
    {state : Nat} {look : Lexeme T V} {rest : List (Lexeme T V)}
    (pending : config.pending = look :: rest)
    (found : tables.rows.find? (topState config.stack) = some row)
    (open' : topState config.stack ≠ tables.final)
    (going : assoc (code look.kind) row.shifts = some state) :
    ∃ after : Config T V, step g tables act config = .next after ∧
      after.stack = (state, look.val) :: config.stack ∧ after.pending = rest := by
  have unsettled : row.consistent = false := by
    cases shifts : row.shifts with
    | nil => rw [shifts] at going; exact absurd going (by simp [assoc])
    | cons _ _ => simp [Row.consistent, shifts]
  obtain ⟨line, fetched⟩ := config.fetch_eq pending
  refine ⟨⟨(state, look.val) :: config.stack, none, line, rest⟩, ?_, rfl, rfl⟩
  have chosen : row.actionOn (code look.kind) = .shift state := by
    simp only [Row.actionOn, going]
  simp only [step, found, open', unsettled, fetched, chosen, ↓reduceIte, Bool.false_eq_true]

end Checked

/-- The token of a lexeme with its value mapped. -/
def Lexeme.token (h : V → W) (lexeme : Lexeme T V) : Token T W := ⟨lexeme.kind, h lexeme.val⟩

/-- `h` carries the line-aware actions to actions that do not see the line. -/
def Carries (act : LineActions V) (sem : Actions W) (h : V → W) : Prop :=
  ∀ rule line values, sem rule (values.map h) = (act rule line values).map h

section Runs

variable {g : Grammar T N} {tables : Tables} {filter : Filter} {sem : Actions W}
  {act : LineActions V} {h : V → W}

/-- The parser runs a nonterminal: from every configuration whose top state has a
transition on it that expects the next token, the parser consumes the word and
pushes the target of the transition with the value. -/
def RunsName (g : Grammar T N) (tables : Tables) (act : LineActions V) (h : V → W)
    (context : Nat × Nat) (name : N) (word : List (Token T W)) (next : T) (value : W) : Prop :=
  ∀ (config : Config T V) (lexemes rest : List (Lexeme T V)) (look : Lexeme T V) (row : Row)
    (goto : Goto), tables.rows.find? (topState config.stack) = some row → context ∈ row.kernel →
    assoc (code name) row.gotos = some goto → has goto.follow (code next) = true →
    config.pending = lexemes ++ look :: rest → lexemes.map (Lexeme.token h) = word →
    look.kind = next →
    ∃ (after : Config T V) (result : V), Steps g tables act config after ∧
      after.stack = (goto.target, result) :: config.stack ∧ h result = value ∧
      after.pending = look :: rest

/-- The parser runs the rest of a rule: it walks the states the check walked. -/
def RunsSymbols (g : Grammar T N) (tables : Tables) (act : LineActions V) (h : V → W)
    (rule dot : Nat) (context : Nat × Nat) (symbols : List (Symbol T N))
    (word : List (Token T W)) (next : T) (values : List W) : Prop :=
  ∀ (config : Config T V) (lexemes rest : List (Lexeme T V)) (look : Lexeme T V)
    (follow : Nat) (last : Row), (∃ row, tables.rows.find? (topState config.stack) = some row ∧
      context ∈ row.kernel) →
    tables.walk rule follow dot (topState config.stack) symbols = some last →
    has follow (code next) = true → config.pending = lexemes ++ look :: rest →
    lexemes.map (Lexeme.token h) = word → look.kind = next →
    ∃ (after : Config T V) (frames : List (Nat × V)),
      Steps g tables act config after ∧ after.stack = frames ++ config.stack ∧
      frames.reverse.map (fun frame => h frame.2) = values ∧ frames.length = symbols.length ∧
      after.pending = look :: rest ∧ topState after.stack ≠ tables.final ∧
      tables.rows.find? (topState after.stack) = some last

theorem mem_of_any {items : List (Nat × Nat)} {rule dot : Nat}
    (found : items.any (fun item => Nat.beq item.1 rule && Nat.beq item.2 dot) = true) :
    (rule, dot) ∈ items := by
  obtain ⟨⟨first, second⟩, member, same⟩ := List.any_eq_true.mp found
  rw [Bool.and_eq_true] at same
  obtain rfl := Nat.eq_of_beq_eq_true same.1
  obtain rfl := Nat.eq_of_beq_eq_true same.2
  exact member

theorem mem_kernel_of_holds {rule next dot : Nat}
    (held : tables.holds rule next dot = true) :
    ∃ row, tables.rows.find? next = some row ∧ (rule, dot + 1) ∈ row.kernel := by
  rw [Tables.holds] at held
  split at held
  · exact absurd held (by decide)
  · rename_i row found
    exact ⟨row, found, mem_of_any held⟩

theorem of_openRow {state : Nat} {row : Row} (found : tables.openRow state = some row) :
    state ≠ tables.final ∧ tables.rows.find? state = some row := by
  rw [Tables.openRow] at found
  split at found
  · exact absurd found (by simp)
  · rename_i distinct
    exact ⟨fun same => distinct (by rw [same]; exact Nat.beq_refl _), found⟩

/-- The three ways a walk can go on. -/
theorem walk_cases {rule follow dot state : Nat} {last : Row} {symbols : List (Symbol T N)}
    (walked : tables.walk rule follow dot state symbols = some last) :
    state ≠ tables.final ∧ ∃ row, tables.rows.find? state = some row ∧
      match symbols with
      | [] => last = row
      | .term kind :: rest => ∃ next, assoc (code kind) row.shifts = some next ∧
          tables.holds rule next dot = true ∧
          tables.walk rule follow (dot + 1) next rest = some last
      | .nonterm name :: rest => ∃ goto, assoc (code name) row.gotos = some goto ∧
          subset (tables.firstOf follow rest) goto.follow = true ∧
          tables.holds rule goto.target dot = true ∧
          tables.walk rule follow (dot + 1) goto.target rest = some last := by
  match symbols with
  | [] =>
      obtain ⟨distinct, found⟩ := of_openRow walked
      exact ⟨distinct, last, found, rfl⟩
  | .term kind :: rest =>
      simp only [Tables.walk] at walked
      split at walked
      · exact absurd walked (by simp)
      · rename_i row found
        obtain ⟨distinct, found⟩ := of_openRow found
        refine ⟨distinct, row, found, ?_⟩
        split at walked
        · exact absurd walked (by simp)
        · rename_i next going
          split at walked
          · rename_i held
            exact ⟨next, going, held, walked⟩
          · exact absurd walked (by simp)
  | .nonterm name :: rest =>
      simp only [Tables.walk] at walked
      split at walked
      · exact absurd walked (by simp)
      · rename_i row found
        obtain ⟨distinct, found⟩ := of_openRow found
        refine ⟨distinct, row, found, ?_⟩
        split at walked
        · exact absurd walked (by simp)
        · rename_i goto going
          split at walked
          · rename_i held
            rw [Bool.and_eq_true] at held
            exact ⟨goto, going, held.1, held.2, walked⟩
          · exact absurd walked (by simp)

/-- **Completeness for a nonterminal.** Checked tables run every derivation that
respects the filter. -/
theorem Reduces.runs (checked : validate g tables filter = true) (carries : Carries act sem h)
    {context : Nat × Nat} {name : N} {word : List (Token T W)} {next : T} {value : W}
    (reduced : Reduces g filter sem context name word next value) :
    RunsName g tables act h context name word next value := by
  refine Reduces.rec
    (motive_1 := fun context name word next value _ =>
      RunsName g tables act h context name word next value)
    (motive_2 := fun rule dot context symbols word next values _ =>
      RunsSymbols g tables act h rule dot context symbols word next values)
    ?_ ?_ ?_ ?_ reduced
  · intro context rule r word next values value numbered _ kept evaluated body config lexemes rest
      look row goto found entered going expected pending spelled kind
    obtain ⟨last, walked, within, -⟩ := walk_of_validate checked found entered numbered going
    obtain ⟨after, frames, steps, stack, evaluates, length, pending', open', found'⟩ :=
      body config lexemes rest look goto.follow last ⟨row, found, entered⟩ walked expected pending
        spelled kind
    have survives : has (last.lost rule goto.follow) (code next) = false := by
      by_contra dropped
      have dropped : has (last.lost rule goto.follow) (code next) = true := by simpa using dropped
      exact absurd ((has_of_subset within dropped).symm.trans kept) (by decide)
    have chosen := Row.actionOn_of_not_lost expected survives
    rw [← kind] at chosen
    obtain ⟨reading, same, pending'', stepped⟩ :=
      step_reduce g act pending' found' open' chosen
    have handle : (reading.stack.take r.rhs.length).reverse.map Prod.snd =
        frames.reverse.map Prod.snd := by
      rw [same, stack, ← length, List.take_left]
    have base : reading.stack.drop r.rhs.length = config.stack := by
      rw [same, stack, ← length, List.drop_left]
    have computed := carries rule reading.line (frames.reverse.map Prod.snd)
    rw [List.map_map, Function.comp_def, evaluates, evaluated] at computed
    obtain ⟨result, acted, image⟩ := Option.map_eq_some_iff.mp computed.symm
    have reached : tables.goto? (topState config.stack) r.lhs = some goto := by
      simp only [Tables.goto?, found, going]
    refine ⟨{ reading with stack := (goto.target, result) :: config.stack }, result,
      steps.tail ?_, rfl, image, pending''⟩
    rw [stepped]
    simp only [reduceBy, numbered, handle, base, acted, reached]
  · intro rule dot context next config lexemes rest look follow last entered walked expected
      pending spelled kind
    obtain rfl : lexemes = [] := List.map_eq_nil_iff.mp spelled
    obtain ⟨open', row, found, rfl⟩ := walk_cases walked
    exact ⟨config, [], .refl, rfl, rfl, rfl, pending, open', found⟩
  · intro rule dot context token symbols word next values _ body config lexemes rest look follow
      last entered walked expected pending spelled kind
    obtain ⟨lexeme, others, rfl, same, spelled⟩ := List.map_eq_cons_iff.mp spelled
    obtain ⟨open', row, found, state, going, held, walked⟩ := walk_cases walked
    have own : lexeme.kind = token.kind := congrArg Token.kind same
    rw [← own] at going
    obtain ⟨shifted, stepped, stack, pending'⟩ :=
      step_shift g act pending found open' going
    have top : topState shifted.stack = state := by rw [stack]; rfl
    obtain ⟨after, frames, steps, stack', evaluates, length, rest'⟩ :=
      body shifted others rest look follow last (by rw [top]; exact mem_kernel_of_holds held)
        (by rw [top]; exact walked) expected pending' spelled kind
    refine ⟨after, frames ++ [(state, lexeme.val)], .head stepped steps, ?_, ?_, ?_, rest'⟩
    · rw [stack', stack, List.append_assoc, List.singleton_append]
    · rw [List.reverse_append, List.map_append, evaluates]
      exact congrArg (· :: values) (congrArg Token.val same)
    · rw [List.length_append, length, List.length_singleton, List.length_cons]
  · intro rule dot context name symbols first second next value values _ derived head body config
      lexemes rest look follow last entered walked expected pending spelled kind
    obtain ⟨leading, others, rfl, spelled, spelled'⟩ := List.map_eq_append_iff.mp spelled
    obtain ⟨row, found, entered⟩ := entered
    obtain ⟨open', row', found', goto, going, within, held, walked⟩ := walk_cases walked
    obtain rfl : row = row' := Option.some.inj (found.symm.trans found')
    have follows := has_of_subset within (derived.has_firstOf_peek checked expected)
    obtain ⟨look', rest', ahead, kind'⟩ : ∃ look' rest', others ++ look :: rest = look' :: rest' ∧
        look'.kind = peek second next := by
      cases others with
      | nil =>
          refine ⟨look, rest, rfl, ?_⟩
          rw [← spelled']
          exact kind
      | cons lexeme others =>
          refine ⟨lexeme, others ++ look :: rest, rfl, ?_⟩
          rw [← spelled']
          rfl
    rw [List.append_assoc, ahead] at pending
    obtain ⟨middle, result, steps, stack, image, pending'⟩ :=
      head config leading rest' look' row goto found entered going follows pending spelled kind'
    have top : topState middle.stack = goto.target := by rw [stack]; rfl
    obtain ⟨after, frames, steps', stack', evaluates, length, tail⟩ :=
      body middle others rest look follow last (by rw [top]; exact mem_kernel_of_holds held)
        (by rw [top]; exact walked) expected (pending'.trans ahead.symm) spelled' kind
    refine ⟨after, frames ++ [(goto.target, result)], steps.trans steps', ?_, ?_, ?_, tail⟩
    · rw [stack', stack, List.append_assoc, List.singleton_append]
    · rw [List.reverse_append, List.map_append, evaluates, ← image]
      rfl
    · rw [List.length_append, length, List.length_singleton, List.length_cons]

/-- The start rule is `$accept: name kind`, and the tables go from state 0 through
`name` and `kind` into the accepting state. -/
def validStart (g : Grammar T N) (tables : Tables) (name : N) (kind : T) : Bool :=
  match g.rules, tables.rows.find? 0 with
  | r :: _, some row =>
      (match r.rhs with
        | [.nonterm name', .term kind'] =>
            Nat.beq (code name') (code name) && Nat.beq (code kind') (code kind)
        | _ => false) &&
      row.kernel.any (fun item => Nat.beq item.1 0 && Nat.beq item.2 0) &&
      match assoc (code name) row.gotos with
      | none => false
      | some goto =>
          has goto.follow (code kind) && !Nat.beq goto.target tables.final &&
          (tables.rows.find? tables.final).isSome &&
          match tables.rows.find? goto.target with
          | none => false
          | some last =>
              match assoc (code kind) last.shifts with
              | none => false
              | some final => Nat.beq final tables.final
  | _, _ => false

/-- **Acceptance.** Checked tables accept every filtered derivation of the start
symbol, and the accepted value is the derived one. -/
theorem accepts_of_reduces (checked : validate g tables filter = true)
    (carries : Carries act sem h) {name : N} {kind : T}
    (starts : validStart g tables name kind = true) {word : List (Token T W)} {value : W}
    (reduced : Reduces g filter sem (0, 0) name word kind value)
    {lexemes : List (Lexeme T V)} (spelled : lexemes.map (Lexeme.token h) = word)
    {eof : Lexeme T V} (ends : eof.kind = kind) :
    ∃ result, Accepts g tables act (lexemes ++ [eof]) result ∧ h result = value := by
  unfold validStart at starts
  split at starts
  · rename_i r rules row _ found
    simp only [Bool.and_eq_true] at starts
    obtain ⟨⟨-, entered⟩, starts⟩ := starts
    have entered := mem_of_any entered
    split at starts
    · exact absurd starts (by decide)
    · rename_i goto going
      simp only [Bool.and_eq_true, Bool.not_eq_true'] at starts
      obtain ⟨⟨⟨expected, distinct⟩, closing⟩, starts⟩ := starts
      split at starts
      · exact absurd starts (by decide)
      · rename_i last found'
        split at starts
        · exact absurd starts (by decide)
        · rename_i final shifting
          obtain rfl := Nat.eq_of_beq_eq_true starts
          obtain ⟨middle, result, steps, stack, image, pending⟩ :=
            reduced.runs checked carries (start (lexemes ++ [eof])) lexemes [] eof row goto found
              entered going expected rfl spelled ends
          have top : topState middle.stack = goto.target := by rw [stack]; rfl
          obtain ⟨after, stepped, stack', -⟩ := step_shift g act pending
            (by rw [top]; exact found')
            (by rw [top]; exact fun same => absurd (same ▸ distinct) (by simp))
            (by rw [ends]; exact shifting)
          obtain ⟨row', found''⟩ := Option.isSome_iff_exists.mp closing
          refine ⟨result, ⟨after, steps.tail stepped, ?_⟩, image⟩
          have top' : topState after.stack = tables.final := by rw [stack']; rfl
          rw [step, top', found'']
          simp only [stack', stack, ↓reduceIte]
  · exact absurd starts (by decide)

end Runs

end LR
