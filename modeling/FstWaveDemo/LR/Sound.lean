import FstWaveDemo.LR.Complete

/-! # Soundness of checked tables

When the items of the tables are consistent with their transitions
(`LR.validItems`), whatever the parser accepts has a derivation that respects the
conflict filter (`LR.reduces_of_accepts`). Together with completeness, the
filtered derivations of the start symbol are exactly the accepted inputs
(`LR.accepts_iff_reduces`).
-/

namespace LR

variable {T N V W : Type} [Coded T] [Coded N]

/-- A transition on the numbered symbol leads to a state whose items all have that
symbol before the dot and come from items of the state left. -/
def advances (rules : Dict (Rule T N)) (tables : Tables) (state : Nat) (row : Row)
    (symbol next : Nat) : Bool :=
  !Nat.beq next 0 &&
    match tables.rows.find? next with
    | none => false
    | some row' => row'.kernel.all fun (rule, dot) =>
        match dot, rules.find? rule with
        | before + 1, some r =>
            (match r.rhs[before]? with
              | some own => Nat.beq own.number symbol
              | none => false) &&
            if Nat.beq before 0 then !Nat.beq rule 0 || Nat.beq state 0
            else row.kernel.any fun item => Nat.beq item.1 rule && Nat.beq item.2 before
        | _, _ => false

/-- The row has the finished item of a rule it reduces. -/
def finishes (rules : Dict (Rule T N)) (row : Row) (rule : Nat) : Bool :=
  match rules.find? rule with
  | none => false
  | some r =>
      r.rhs.isEmpty ||
        row.kernel.any fun item => Nat.beq item.1 rule && Nat.beq item.2 r.rhs.length

/-- Transitions advance items, reductions finish them, and the accepting state
finishes the start rule. -/
def validItems (g : Grammar T N) (tables : Tables) : Bool :=
  let rules := Dict.ofList g.rules
  (tables.rows.toList.all fun (state, row) =>
    row.shifts.all (fun (a, next) => advances rules tables state row (2 * a) next) &&
    row.gotos.all (fun (name, goto) =>
      advances rules tables state row (2 * name + 1) goto.target) &&
    row.reduces.all (fun (_, rule) => finishes rules row rule) &&
    match row.defaultRule with
    | some rule => finishes rules row rule
    | none => true) &&
  (match tables.rows.find? 0 with
    | some row => row.kernel.all fun item => Nat.beq item.2 0
    | none => false) &&
  match tables.rows.find? tables.final with
  | some row => row.kernel.any fun item => Nat.beq item.1 0 && Nat.beq item.2 2
  | none => false

/-- The target of a transition. -/
def Tables.transition (tables : Tables) (state : Nat) (symbol : Symbol T N) : Option Nat :=
  match tables.rows.find? state with
  | none => none
  | some row =>
      match symbol with
      | .term kind => assoc (code kind) row.shifts
      | .nonterm name => (assoc (code name) row.gotos).map Goto.target

/-- A stack entry with the symbol it stands for and the tokens it covers. -/
structure Frame (T N V : Type) where
  state : Nat
  val : V
  symbol : Symbol T N
  word : List (Lexeme T V)

/-- The state on top of some frames. -/
def Frame.top : List (Frame T N V) → Nat
  | [] => 0
  | frame :: _ => frame.state

/-- The tokens covered by some frames, given top first. -/
def Frame.words (frames : List (Frame T N V)) : List (Lexeme T V) :=
  frames.reverse.flatMap Frame.word

/-- The stack of some frames. -/
def Frame.stack (frames : List (Frame T N V)) : List (Nat × V) :=
  frames.map fun frame => (frame.state, frame.val)

omit [Coded T] [Coded N] in
@[simp] theorem Frame.top_stack (frames : List (Frame T N V)) :
    topState (Frame.stack frames) = Frame.top frames := by
  cases frames <;> rfl

omit [Coded T] [Coded N] in
theorem Frame.words_cons (frame : Frame T N V) (frames : List (Frame T N V)) :
    Frame.words (frame :: frames) = Frame.words frames ++ frame.word := by
  simp [Frame.words]

omit [Coded T] [Coded N] in
theorem Frame.words_append (first second : List (Frame T N V)) :
    Frame.words (first ++ second) = Frame.words second ++ Frame.words first := by
  simp [Frame.words]

section Runs

variable (g : Grammar T N) (tables : Tables) (filter : Filter) (sem : Actions W) (h : V → W)

/-- What a frame on top of state `below` stands for: its token, or a filtered
derivation in every context of `below`, given the tokens that follow. -/
def Stands (below : Nat) (frame : Frame T N V) (following : List (Lexeme T V)) : Prop :=
  match frame.symbol with
  | .term kind => ∃ lexeme, frame.word = [lexeme] ∧ lexeme.kind = kind ∧ lexeme.val = frame.val
  | .nonterm name => ∀ row context look rest, tables.rows.find? below = some row →
      context ∈ row.kernel → following = look :: rest →
      Reduces g filter sem context name (frame.word.map (Lexeme.token h)) look.kind (h frame.val)

/-- Frames linked by transitions, each standing for what it covers. -/
inductive Linked : List (Frame T N V) → List (Lexeme T V) → Prop
  | nil {following : List (Lexeme T V)} : Linked [] following
  | cons {frame : Frame T N V} {frames : List (Frame T N V)} {following : List (Lexeme T V)}
      (below : Linked frames (frame.word ++ following))
      (going : tables.transition (Frame.top frames) frame.symbol = some frame.state)
      (stands : Stands g tables filter sem h (Frame.top frames) frame following) :
      Linked (frame :: frames) following

variable {g tables filter sem h}

theorem Linked.drop {frames : List (Frame T N V)} {following : List (Lexeme T V)}
    (linked : Linked g tables filter sem h frames following) (count : Nat) :
    Linked g tables filter sem h (frames.drop count)
      (Frame.words (frames.take count) ++ following) := by
  induction count generalizing frames following with
  | zero => simpa [Frame.words] using linked
  | succ count ih =>
      cases linked with
      | nil => simpa [Frame.words] using Linked.nil
      | cons below _ _ =>
          have deeper := ih below
          rw [List.drop_succ_cons, List.take_succ_cons, Frame.words_cons, List.append_assoc]
          exact deeper

/-- The item check of a transition. -/
theorem advances_of_valid (valid : validItems g tables = true) {state next : Nat}
    {symbol : Symbol T N} (going : tables.transition state symbol = some next) :
    ∃ row, tables.rows.find? state = some row ∧
      advances (Dict.ofList g.rules) tables state row symbol.number next = true := by
  simp only [validItems, Bool.and_eq_true] at valid
  rw [Tables.transition] at going
  split at going
  · exact absurd going (by simp)
  · rename_i row found
    have own := List.all_eq_true.mp valid.1.1 _ (Dict.mem_toList_of_find? found)
    simp only [Bool.and_eq_true] at own
    refine ⟨row, found, ?_⟩
    cases symbol with
    | term kind => exact List.all_eq_true.mp own.1.1.1 _ (mem_of_assoc going)
    | nonterm name =>
        have going : (assoc (code name) row.gotos).map Goto.target = some next := going
        obtain ⟨goto, listed, rfl⟩ := Option.map_eq_some_iff.mp going
        exact List.all_eq_true.mp own.1.1.2 _ (mem_of_assoc listed)

/-- An item of the state reached by a transition. -/
theorem item_of_transition (valid : validItems g tables = true) {state next : Nat}
    {symbol : Symbol T N} (going : tables.transition state symbol = some next) {row' : Row}
    (found' : tables.rows.find? next = some row') {rule dot : Nat}
    (member : (rule, dot) ∈ row'.kernel) :
    next ≠ 0 ∧ ∃ before r, dot = before + 1 ∧ g.rules[rule]? = some r ∧
      r.rhs[before]? = some symbol ∧
      (before = 0 → rule = 0 → state = 0) ∧
      (before ≠ 0 → ∃ row, tables.rows.find? state = some row ∧ (rule, before) ∈ row.kernel) := by
  obtain ⟨row, found, advanced⟩ := advances_of_valid valid going
  rw [advances, found', Bool.and_eq_true] at advanced
  obtain ⟨positive, items⟩ := advanced
  have own := List.all_eq_true.mp items _ member
  refine ⟨fun zero => by simp [zero] at positive, ?_⟩
  simp only [Dict.find?_ofList] at own
  split at own
  · rename_i before r numbered
    rw [Bool.and_eq_true] at own
    refine ⟨before, r, rfl, numbered, ?_, ?_, ?_⟩
    · have same := own.1
      split at same
      · rename_i other listed
        rw [listed, Symbol.number_injective (Nat.eq_of_beq_eq_true same)]
      · exact absurd same (by decide)
    · intro first zero
      have rooted := own.2
      rw [first, zero, if_pos (Nat.beq_refl 0)] at rooted
      simpa using rooted
    · intro later
      have deeper := own.2
      rw [if_neg (fun zero => later (Nat.eq_of_beq_eq_true zero))] at deeper
      exact ⟨row, found, mem_of_any deeper⟩
  · exact absurd own (by decide)

/-- The items of state 0 have the dot in front. -/
theorem dot_of_start (valid : validItems g tables = true) {row : Row}
    (found : tables.rows.find? 0 = some row) {rule dot : Nat} (member : (rule, dot) ∈ row.kernel) :
    dot = 0 := by
  simp only [validItems, Bool.and_eq_true, found] at valid
  exact Nat.eq_of_beq_eq_true (List.all_eq_true.mp valid.1.2 _ member)

theorem cons_drop_of_getElem? {α : Type} {items : List α} {dot : Nat} {item : α}
    (listed : items[dot]? = some item) : items.drop dot = item :: items.drop (dot + 1) := by
  obtain ⟨within, rfl⟩ := List.getElem?_eq_some_iff.mp listed
  exact List.drop_eq_getElem_cons within

/-- A walk follows the transitions of the tables. -/
theorem walk_advance {state next rule follow dot : Nat} {symbol : Symbol T N}
    {symbols : List (Symbol T N)} {last : Row}
    (going : tables.transition state symbol = some next)
    (walked : tables.walk rule follow dot state (symbol :: symbols) = some last) :
    tables.walk rule follow (dot + 1) next symbols = some last := by
  obtain ⟨-, row, found, onward⟩ := walk_cases walked
  cases symbol with
  | term kind =>
      obtain ⟨other, listed, -, onward⟩ := onward
      simp only [Tables.transition, found] at going
      rwa [Option.some.inj (going.symm.trans listed)]
  | nonterm name =>
      obtain ⟨other, listed, -, -, onward⟩ := onward
      simp only [Tables.transition, found, listed, Option.map_some] at going
      rwa [← Option.some.inj going]

theorem Linked.top_ne_zero (valid : validItems g tables = true) {frame : Frame T N V}
    {frames : List (Frame T N V)} {following : List (Lexeme T V)}
    (linked : Linked g tables filter sem h (frame :: frames) following) : frame.state ≠ 0 := by
  cases linked with
  | cons _ going _ =>
  obtain ⟨row, -, advanced⟩ := advances_of_valid valid going
  rw [advances, Bool.and_eq_true] at advanced
  exact fun zero => by simp [zero] at advanced

omit [Coded N] in
/-- A derivation of the symbols after a frame's symbol extends to that symbol. -/
theorem Stands.extend {below rule dot : Nat} {frame : Frame T N V} {row : Row}
    {context : Nat × Nat} {symbols : List (Symbol T N)} {tail rest : List (Lexeme T V)}
    {look : Lexeme T V} {values : List W}
    (stands : Stands g tables filter sem h below frame (tail ++ look :: rest))
    (found : tables.rows.find? below = some row) (entered : context ∈ row.kernel)
    (derived : Derives g filter sem rule (dot + 1) (rule, dot + 1) symbols
      (tail.map (Lexeme.token h)) look.kind values) :
    Derives g filter sem rule dot context (frame.symbol :: symbols)
      ((frame.word ++ tail).map (Lexeme.token h)) look.kind (h frame.val :: values) := by
  obtain ⟨state, val, symbol, word⟩ := frame
  cases symbol with
  | term kind =>
      obtain ⟨lexeme, covers, rfl, same⟩ := stands
      obtain rfl : word = [lexeme] := covers
      obtain rfl : lexeme.val = val := same
      have whole : Derives g filter sem rule dot context
          (.term (lexeme.token h).kind :: symbols) (lexeme.token h :: tail.map (Lexeme.token h))
          look.kind ((lexeme.token h).val :: values) := .term derived
      exact whole
  | nonterm name =>
      rw [List.map_append]
      refine .nonterm ?_ derived
      cases tail with
      | nil => exact stands row context look rest found entered rfl
      | cons first tail =>
          exact stands row context first (tail ++ look :: rest) found entered rfl

/-- **Popping a handle.** Frames whose top state has the item of a rule after its
first `dot + 1` symbols end in frames for these symbols. They complete a derivation
of the remaining symbols to one of the whole right side, in every context of the
state below, and the walk of the rule from that state passes through the top. -/
theorem Linked.handle (valid : validItems g tables = true) {rule : Nat} {r : Rule T N}
    (numbered : g.rules[rule]? = some r) {look : Lexeme T V} {rest : List (Lexeme T V)} (dot : Nat)
    {frames : List (Frame T N V)} {row : Row} {tail : List (Lexeme T V)} {values : List W}
    (linked : Linked g tables filter sem h frames (tail ++ look :: rest))
    (found : tables.rows.find? (Frame.top frames) = some row)
    (member : (rule, dot + 1) ∈ row.kernel)
    (derived : Derives g filter sem rule (dot + 1) (rule, dot + 1) (r.rhs.drop (dot + 1))
      (tail.map (Lexeme.token h)) look.kind values) :
    (rule = 0 → Frame.top (frames.drop (dot + 1)) = 0) ∧
      (∀ follow last,
        tables.walk rule follow 0 (Frame.top (frames.drop (dot + 1))) r.rhs = some last →
        tables.walk rule follow (dot + 1) (Frame.top frames) (r.rhs.drop (dot + 1)) = some last) ∧
      ∀ row' context, tables.rows.find? (Frame.top (frames.drop (dot + 1))) = some row' →
        context ∈ row'.kernel →
        Derives g filter sem rule 0 context r.rhs
          ((Frame.words (frames.take (dot + 1)) ++ tail).map (Lexeme.token h)) look.kind
          ((frames.take (dot + 1)).reverse.map (fun frame => h frame.val) ++ values) := by
  induction dot generalizing frames row tail values with
  | zero =>
      cases linked with
      | nil => exact absurd (dot_of_start valid found member) (by omega)
      | @cons frame frames _ below going stands =>
          obtain ⟨-, before, r', placed, numbered', listed, rooted, -⟩ :=
            item_of_transition valid going found member
          obtain rfl : before = 0 := by omega
          obtain rfl : r = r' := Option.some.inj (numbered.symm.trans numbered')
          have split : r.rhs = frame.symbol :: r.rhs.drop 1 := cons_drop_of_getElem? listed
          refine ⟨rooted rfl, fun follow last walked => ?_, fun row' context found' entered => ?_⟩
          · exact walk_advance going (split ▸ walked)
          · have whole := stands.extend found' entered derived
            rw [← split] at whole
            simpa [Frame.words] using whole
  | succ dot ih =>
      cases linked with
      | nil => exact absurd (dot_of_start valid found member) (by omega)
      | @cons frame frames _ below going stands =>
          obtain ⟨-, before, r', placed, numbered', listed, -, deeper⟩ :=
            item_of_transition valid going found member
          obtain rfl : before = dot + 1 := by omega
          obtain rfl : r = r' := Option.some.inj (numbered.symm.trans numbered')
          obtain ⟨row', found', member'⟩ := deeper (by omega)
          have split : r.rhs.drop (dot + 1) = frame.symbol :: r.rhs.drop (dot + 1 + 1) :=
            cons_drop_of_getElem? listed
          have longer := stands.extend found' member' derived
          rw [← split] at longer
          rw [← List.append_assoc] at below
          obtain ⟨rooted, walks, derives⟩ := ih below found' member' longer
          refine ⟨rooted, fun follow last walked => ?_, fun row'' context found'' entered => ?_⟩
          · have walked := walks follow last walked
            rw [split] at walked
            exact walk_advance going walked
          · have whole := derives row'' context found'' entered
            simpa [Frame.words_cons] using whole

omit [Coded T] [Coded N] in
theorem has_of_lostAmong {rule a follow : Nat} {defaultRule : Option Nat}
    {reduces : List (Nat × Nat)}
    (dropped : has (lostAmong rule defaultRule follow reduces) a = true) :
    has follow a = true := by
  induction reduces generalizing follow with
  | nil =>
      simp only [lostAmong] at dropped
      split at dropped
      · split at dropped
        · exact absurd dropped (by simp)
        · exact dropped
      · exact dropped
  | cons entry rest ih =>
      simp only [lostAmong] at dropped
      split at dropped
      · have inner := ih dropped
        rw [has_without, Bool.and_eq_true] at inner
        exact inner.1
      · rw [has_lor, Bool.or_eq_true, has_land, Bool.and_eq_true] at dropped
        rcases dropped with both | later
        · exact both.1
        · have inner := ih later
          rw [has_without, Bool.and_eq_true] at inner
          exact inner.1

/-- On a lookahead that is lost, the row does not reduce the rule. -/
theorem listedRule_of_lost {rule a : Nat} {defaultRule : Option Nat} :
    ∀ {follow : Nat} {reduces : List (Nat × Nat)},
      has (lostAmong rule defaultRule follow reduces) a = true →
      (Row.listedRule a reduces).or defaultRule ≠ some rule := by
  intro follow reduces
  induction reduces generalizing follow with
  | nil =>
      intro dropped
      simp only [lostAmong] at dropped
      simp only [Row.listedRule, Option.none_or]
      split at dropped
      · rename_i other
        split at dropped
        · exact absurd dropped (by simp)
        · rename_i distinct
          exact fun same => distinct (by rw [Option.some.inj same]; exact Nat.beq_refl _)
      · exact fun impossible => by cases impossible
  | cons entry rest ih =>
      obtain ⟨mask, other⟩ := entry
      intro dropped
      simp only [Row.listedRule]
      simp only [lostAmong] at dropped
      by_cases inside : has mask a = true
      · rw [if_pos inside]
        split at dropped
        · have outside := has_of_lostAmong dropped
          rw [has_without, inside] at outside
          exact absurd outside (by simp)
        · rename_i distinct
          exact fun same => distinct (by
            rw [Option.some.inj same]
            exact Nat.beq_refl _)
      · rw [if_neg inside]
        split at dropped
        · exact ih dropped
        · rw [has_lor, Bool.or_eq_true, has_land, Bool.and_eq_true] at dropped
          exact dropped.elim (fun both => absurd both.2 inside) ih

theorem assoc_ne_none {α : Type} {a : Nat} {entries : List (Nat × α)}
    (present : has (orAll (fun entry => bit entry.1) entries) a = true) :
    ∃ value, assoc a entries = some value := by
  induction entries with
  | nil => exact absurd present (by simp [orAll])
  | cons entry rest ih =>
      rw [orAll, has_lor, has_bit, Bool.or_eq_true, decide_eq_true_eq] at present
      rw [assoc]
      split
      · exact ⟨_, rfl⟩
      · rename_i distinct
        refine ih (present.resolve_left fun same => distinct ?_)
        rw [same]
        exact Nat.beq_refl _

/-- A row that reduces a rule on a lookahead has not lost the rule there. -/
theorem Row.lost_of_actionOn {row : Row} {rule follow a : Nat}
    (chosen : row.actionOn a = .reduce rule) : has (row.lost rule follow) a = false := by
  by_contra dropped
  rw [Bool.not_eq_false, Row.lost, has_lor, Bool.or_eq_true, has_land, Bool.and_eq_true] at dropped
  rw [Row.actionOn] at chosen
  split at chosen
  · exact absurd chosen (by simp)
  · rename_i absent
    have unshifted : has (orAll (fun shift => bit shift.1) row.shifts) a = false := by
      by_contra present
      obtain ⟨next, found⟩ := assoc_ne_none (by simpa using present)
      exact absurd (absent.symm.trans found) (by simp)
    split at chosen
    · exact absurd chosen (by simp)
    · rename_i fine
      rcases dropped with taken | listed
      · have taken := taken.2
        rw [Row.taken, has_lor, unshifted, Bool.false_or] at taken
        exact fine taken
      · refine listedRule_of_lost listed ?_
        split at chosen
        · rename_i other found
          rw [found, Action.reduce.inj chosen]
          rfl
        · rename_i absent
          rw [absent]
          split at chosen
          · rename_i other found
            rw [found, Action.reduce.inj chosen]
            rfl
          · exact absurd chosen (by simp)

theorem mem_of_listedRule {a rule : Nat} {reduces : List (Nat × Nat)}
    (found : Row.listedRule a reduces = some rule) : ∃ mask, (mask, rule) ∈ reduces := by
  induction reduces with
  | nil => exact absurd found (by simp [Row.listedRule])
  | cons entry rest ih =>
      obtain ⟨mask, other⟩ := entry
      simp only [Row.listedRule] at found
      split at found
      · exact ⟨mask, List.mem_cons.mpr (Or.inl (by rw [Option.some.inj found]))⟩
      · obtain ⟨mask, member⟩ := ih found
        exact ⟨mask, List.mem_cons_of_mem _ member⟩

theorem assoc_of_shift {row : Row} {a next : Nat} (chosen : row.actionOn a = .shift next) :
    assoc a row.shifts = some next := by
  rw [Row.actionOn] at chosen
  split at chosen
  · rename_i state found
    rw [found, Action.shift.inj chosen]
  · split at chosen
    · exact absurd chosen (by simp)
    · split at chosen
      · exact absurd chosen (by simp)
      · split at chosen <;> exact absurd chosen (by simp)

omit [Coded T] in
/-- What reading the lookahead gives. -/
theorem fetch_some {config reading : Config T V} {look : Lexeme T V}
    (fetched : config.fetch = some (look, reading)) :
    ∃ rest, config.pending = look :: rest ∧ reading.lookahead = some look ∧
      reading.stack = config.stack ∧ reading.input = rest := by
  obtain ⟨stack, lookahead, line, input⟩ := config
  cases lookahead with
  | some held =>
      obtain ⟨rfl, rfl⟩ := Prod.mk.inj (Option.some.inj fetched)
      exact ⟨input, rfl, rfl, rfl, rfl⟩
  | none =>
      cases input with
      | nil => exact absurd fetched (by simp [Config.fetch])
      | cons token rest =>
          obtain ⟨rfl, rfl⟩ := Prod.mk.inj (Option.some.inj fetched)
          exact ⟨rest, rfl, rfl, rfl, rfl⟩

omit [Coded T] in
/-- What a reduction does. -/
theorem reduceBy_next {act : LineActions V} {rule : Nat} {config after : Config T V}
    (stepped : reduceBy g tables act rule config = .next after) :
    ∃ r value goto, g.rules[rule]? = some r ∧
      act rule config.line ((config.stack.take r.rhs.length).reverse.map Prod.snd) = some value ∧
      tables.goto? (topState (config.stack.drop r.rhs.length)) r.lhs = some goto ∧
      after = { config with stack := (goto.target, value) :: config.stack.drop r.rhs.length } := by
  rw [reduceBy] at stepped
  cases numbered : g.rules[rule]? with
  | none => rw [numbered] at stepped; exact absurd stepped (by simp)
  | some r =>
      rw [numbered] at stepped
      simp only at stepped
      split at stepped
      · exact absurd stepped (by simp)
      · rename_i value evaluated
        split at stepped
        · exact absurd stepped (by simp)
        · rename_i goto going
          exact ⟨r, value, goto, rfl, evaluated, going, (Outcome.next.inj stepped).symm⟩

omit [Coded T] in
theorem reduceBy_ne_accept {act : LineActions V} {rule : Nat} {config : Config T V} {value : V} :
    reduceBy g tables act rule config ≠ .accept value := by
  rw [reduceBy]
  split
  · exact fun impossible => by cases impossible
  · simp only
    split
    · exact fun impossible => by cases impossible
    · split <;> exact fun impossible => by cases impossible

/-- A row decides for a rule that it lists or has as its default. -/
theorem Row.mem_of_actionOn {row : Row} {rule a : Nat} (chosen : row.actionOn a = .reduce rule) :
    (∃ mask, (mask, rule) ∈ row.reduces) ∨ row.defaultRule = some rule := by
  rw [Row.actionOn] at chosen
  split at chosen
  · exact absurd chosen (by simp)
  · split at chosen
    · exact absurd chosen (by simp)
    · split at chosen
      · rename_i other found
        rw [← Action.reduce.inj chosen]
        exact Or.inl (mem_of_listedRule found)
      · split at chosen
        · rename_i other found
          rw [← Action.reduce.inj chosen]
          exact Or.inr found
        · exact absurd chosen (by simp)

/-- What one step of the parser can do: shift the lookahead, or reduce by a rule of
the row. -/
theorem step_next {act : LineActions V} {config after : Config T V}
    (stepped : step g tables act config = .next after) :
    ∃ row, tables.rows.find? (topState config.stack) = some row ∧
      ((∃ look rest next, config.pending = look :: rest ∧
          assoc (code look.kind) row.shifts = some next ∧
          after.stack = (next, look.val) :: config.stack ∧ after.pending = rest) ∨
        ∃ rule reading, reading.stack = config.stack ∧ reading.pending = config.pending ∧
          ((∃ mask, (mask, rule) ∈ row.reduces) ∨ row.defaultRule = some rule) ∧
          (∀ look rest, config.pending = look :: rest →
            row.actionOn (code look.kind) = .reduce rule) ∧
          reduceBy g tables act rule reading = .next after) := by
  rw [step] at stepped
  split at stepped
  · exact absurd stepped (by simp)
  · rename_i row found
    refine ⟨row, found, ?_⟩
    split at stepped
    · split at stepped <;> exact absurd stepped (by simp)
    · split at stepped
      · rename_i settled
        split at stepped
        · rename_i rule default
          refine Or.inr ⟨rule, config, rfl, rfl, Or.inr default, fun look rest _ => ?_, stepped⟩
          simp only [Row.consistent, Bool.and_eq_true, List.isEmpty_iff] at settled
          have errors : row.errors = 0 := Nat.eq_of_beq_eq_true settled.2
          simp [Row.actionOn, settled.1.1, settled.1.2, errors, assoc, Row.listedRule, default]
        · exact absurd stepped (by simp)
      · split at stepped
        · exact absurd stepped (by simp)
        · rename_i look reading fetched
          obtain ⟨rest, pending, held, stack, others⟩ := fetch_some fetched
          split at stepped
          · rename_i next chosen
            refine Or.inl ⟨look, rest, next, pending, ?_, ?_⟩
            · exact assoc_of_shift chosen
            · rw [← Outcome.next.inj stepped]
              exact ⟨congrArg _ stack, others⟩
          · rename_i rule chosen
            refine Or.inr ⟨rule, reading, stack, ?_, Row.mem_of_actionOn chosen, ?_, stepped⟩
            · rw [pending, Config.pending, held, others]
              rfl
            · intro look' rest' pending'
              obtain ⟨rfl, -⟩ := List.cons.inj (pending.symm.trans pending')
              exact chosen
          · exact absurd stepped (by simp)

variable (g tables filter sem h) in
/-- A configuration that stands for the part of the input shifted so far. -/
def Covers (input : List (Lexeme T V)) (config : Config T V) : Prop :=
  ∃ frames : List (Frame T N V), config.stack = Frame.stack frames ∧
    Linked g tables filter sem h frames config.pending ∧
    Frame.words frames ++ config.pending = input

omit [Coded T] [Coded N] in
theorem Frame.stack_drop (frames : List (Frame T N V)) (count : Nat) :
    (Frame.stack frames).drop count = Frame.stack (frames.drop count) := by
  rw [Frame.stack, Frame.stack, List.map_drop]

omit [Coded T] [Coded N] in
theorem Frame.stack_take_values (frames : List (Frame T N V)) (count : Nat) :
    (((Frame.stack frames).take count).reverse.map Prod.snd).map h =
      (frames.take count).reverse.map fun frame => h frame.val := by
  simp [Frame.stack, ← List.map_take, Function.comp_def]

/-- The row of a state finishes the rules it reduces. -/
theorem finishes_of_valid (valid : validItems g tables = true) {state rule : Nat} {row : Row}
    (found : tables.rows.find? state = some row)
    (listed : (∃ mask, (mask, rule) ∈ row.reduces) ∨ row.defaultRule = some rule)
    {r : Rule T N} (numbered : g.rules[rule]? = some r) :
    r.rhs = [] ∨ (rule, r.rhs.length) ∈ row.kernel := by
  have finished : finishes (Dict.ofList g.rules) row rule = true := by
    simp only [validItems, Bool.and_eq_true] at valid
    have own := List.all_eq_true.mp valid.1.1 _ (Dict.mem_toList_of_find? found)
    simp only [Bool.and_eq_true] at own
    rcases listed with ⟨mask, member⟩ | default
    · exact List.all_eq_true.mp own.1.2 _ member
    · have own := own.2
      rw [default] at own
      exact own
  rw [finishes, Dict.find?_ofList, numbered, Bool.or_eq_true, List.isEmpty_iff] at finished
  exact finished.imp id mem_of_any

/-- The frame that a reduction pushes stands for the handle it pops. -/
theorem Linked.reduce (valid : validItems g tables = true)
    (checked : validate g tables filter = true) {rule : Nat} {r : Rule T N}
    (numbered : g.rules[rule]? = some r) {frames : List (Frame T N V)} {row : Row}
    {following : List (Lexeme T V)} (linked : Linked g tables filter sem h frames following)
    (found : tables.rows.find? (Frame.top frames) = some row)
    (listed : (∃ mask, (mask, rule) ∈ row.reduces) ∨ row.defaultRule = some rule)
    (chosen : ∀ look rest, following = look :: rest →
      row.actionOn (code look.kind) = .reduce rule) {goto : Goto} {value : V}
    (going : tables.goto? (Frame.top (frames.drop r.rhs.length)) r.lhs = some goto)
    (evaluated : sem rule ((frames.take r.rhs.length).reverse.map fun frame => h frame.val) =
      some (h value)) :
    Linked g tables filter sem h
      (⟨goto.target, value, .nonterm r.lhs, Frame.words (frames.take r.rhs.length)⟩ ::
        frames.drop r.rhs.length) following := by
  have moving : tables.transition (Frame.top (frames.drop r.rhs.length))
      (.nonterm r.lhs : Symbol T N) = some goto.target := by
    rw [Tables.goto?] at going
    rw [Tables.transition]
    split at going
    · rename_i base found'
      rw [found']
      simp only [going, Option.map_some]
    · exact absurd going (by simp)
  refine .cons (linked.drop _) moving ?_
  intro base context look rest found' entered ahead
  subst ahead
  rw [Tables.goto?, found'] at going
  obtain ⟨last, walked, -, within⟩ := walk_of_validate checked found' entered numbered going
  obtain ⟨derived, top⟩ : Derives g filter sem rule 0 context r.rhs
      ((Frame.words (frames.take r.rhs.length)).map (Lexeme.token h)) look.kind
      ((frames.take r.rhs.length).reverse.map fun frame => h frame.val) ∧ last = row := by
    cases length : r.rhs.length with
    | zero =>
        obtain empty := List.length_eq_zero_iff.mp length
        rw [empty] at walked ⊢
        obtain ⟨-, row', found'', top⟩ := walk_cases walked
        exact ⟨.nil, top.trans (Option.some.inj (found''.symm.trans found))⟩
    | succ dot =>
        have member := (finishes_of_valid valid found listed numbered).resolve_left
          fun empty => by simp [empty] at length
        rw [length] at member found' walked
        have done : r.rhs.drop (dot + 1) = [] := List.drop_eq_nil_of_le (by omega)
        have ended : Derives g filter sem rule (dot + 1) (rule, dot + 1) (r.rhs.drop (dot + 1))
            (([] : List (Lexeme T V)).map (Lexeme.token h)) look.kind [] := by
          rw [done]
          exact .nil
        obtain ⟨-, walks, derives⟩ := Linked.handle valid numbered dot linked found member ended
        have finished := walks _ _ walked
        rw [done] at finished
        obtain ⟨-, row', found'', top⟩ := walk_cases finished
        have whole := derives base context found' entered
        rw [List.append_nil, List.append_nil] at whole
        exact ⟨whole, top.trans (Option.some.inj (found''.symm.trans found))⟩
  subst top
  have kept : has (filter context rule) (code look.kind) = false := by
    by_contra dropped
    have dropped := has_of_subset within (by simpa using dropped)
    rw [Row.lost_of_actionOn (chosen look rest rfl)] at dropped
    exact absurd dropped (by decide)
  exact .rule numbered derived kept evaluated

/-- Every step keeps the configuration standing for what it has shifted. -/
theorem Covers.step {act : LineActions V} (valid : validItems g tables = true)
    (checked : validate g tables filter = true) (carries : Carries act sem h)
    {input : List (Lexeme T V)} {config after : Config T V}
    (covers : Covers g tables filter sem h input config)
    (stepped : LR.step g tables act config = .next after) :
    Covers g tables filter sem h input after := by
  obtain ⟨frames, stack, linked, whole⟩ := covers
  obtain ⟨row, found, shifts | reduces⟩ := step_next stepped
  · obtain ⟨look, rest, next, pending, going, stack', pending'⟩ := shifts
    refine ⟨⟨next, look.val, .term look.kind, [look]⟩ :: frames, ?_, ?_, ?_⟩
    · rw [stack', stack]
      rfl
    · rw [stack, Frame.top_stack] at found
      rw [pending] at linked
      rw [pending']
      refine .cons linked ?_ ⟨look, rfl, rfl, rfl⟩
      simp only [Tables.transition, found, going]
    · rw [Frame.words_cons, pending', List.append_assoc, ← whole, pending]
      rfl
  · obtain ⟨rule, reading, same, pending, listed, chosen, reduced⟩ := reduces
    obtain ⟨r, value, goto, numbered, evaluated, going, rfl⟩ := reduceBy_next reduced
    rw [same, stack] at evaluated going
    rw [stack, Frame.top_stack] at found
    rw [Frame.stack_drop, Frame.top_stack] at going
    have computed : sem rule ((frames.take r.rhs.length).reverse.map fun frame => h frame.val) =
        some (h value) := by
      rw [← Frame.stack_take_values, carries rule reading.line, evaluated]
      rfl
    refine ⟨⟨goto.target, value, .nonterm r.lhs, Frame.words (frames.take r.rhs.length)⟩ ::
      frames.drop r.rhs.length, ?_, ?_, ?_⟩
    · simp only [same, stack, Frame.stack_drop]
      rfl
    · have pushed := linked.reduce valid checked numbered found listed chosen going computed
      rw [← pending] at pushed
      exact pushed
    · have popped : Frame.words (frames.drop r.rhs.length) ++
          Frame.words (frames.take r.rhs.length) = Frame.words frames := by
        rw [← Frame.words_append, List.take_append_drop]
      rw [Frame.words_cons, popped, ← whole, ← pending]
      rfl

theorem Covers.steps {act : LineActions V} (valid : validItems g tables = true)
    (checked : validate g tables filter = true) (carries : Carries act sem h)
    {input : List (Lexeme T V)} {config after : Config T V}
    (covers : Covers g tables filter sem h input config) (steps : Steps g tables act config after) :
    Covers g tables filter sem h input after := by
  induction steps with
  | refl => exact covers
  | tail _ stepped ih => exact ih.step valid checked carries stepped

/-- What the check of the start rule says. -/
theorem start_of_valid {name : N} {kind : T} (starts : validStart g tables name kind = true) :
    ∃ r row, g.rules[0]? = some r ∧ r.rhs = [.nonterm name, .term kind] ∧
      tables.rows.find? 0 = some row ∧ (0, 0) ∈ row.kernel := by
  rw [validStart] at starts
  split at starts
  · rename_i r rules row listed found
    simp only [Bool.and_eq_true] at starts
    obtain ⟨⟨named, entered⟩, -⟩ := starts
    refine ⟨r, row, by rw [listed]; rfl, ?_, found, mem_of_any entered⟩
    split at named
    · rename_i name' kind' symbols
      rw [Bool.and_eq_true] at named
      rw [symbols, Coded.code_injective (Nat.eq_of_beq_eq_true named.1),
        Coded.code_injective (Nat.eq_of_beq_eq_true named.2)]
    · exact absurd named (by decide)
  · exact absurd starts (by decide)

/-- **Soundness.** What the parser accepts is a filtered derivation of the start
symbol with the accepted value, up to an end token. -/
theorem reduces_of_accepts {act : LineActions V} (valid : validItems g tables = true)
    (checked : validate g tables filter = true) (carries : Carries act sem h) {name : N} {kind : T}
    (starts : validStart g tables name kind = true) {input : List (Lexeme T V)} {result : V}
    (accepted : Accepts g tables act input result) :
    ∃ lexemes eof rest, input = lexemes ++ eof :: rest ∧ eof.kind = kind ∧
      Reduces g filter sem (0, 0) name (lexemes.map (Lexeme.token h)) kind (h result) := by
  obtain ⟨config, steps, accepts⟩ := accepted
  have begins : Covers g tables filter sem h input (start input) := ⟨[], rfl, .nil, rfl⟩
  obtain ⟨frames, stack, linked, whole⟩ := begins.steps valid checked carries steps
  rw [LR.step] at accepts
  split at accepts
  · exact absurd accepts (by simp)
  · rename_i row found
    split at accepts
    · rename_i final
      split at accepts
      · rename_i last below value others stacked
        rw [stack] at stacked
        obtain rfl : value = result := Outcome.accept.inj accepts
        obtain ⟨closing, _, rfl, -, stacked⟩ := List.map_eq_cons_iff.mp stacked
        obtain ⟨opening, deeper, rfl, same, -⟩ := List.map_eq_cons_iff.mp stacked
        obtain rfl : opening.val = value := congrArg Prod.snd same
        rw [stack, Frame.top_stack] at found final
        rw [final] at found
        obtain ⟨r, bottom, first, symbols, foundBottom, entered⟩ := start_of_valid starts
        have member : (0, 2) ∈ row.kernel := by
          simp only [validItems, Bool.and_eq_true, found] at valid
          exact mem_of_any valid.2
        cases linked with
        | cons linked going stands =>
            rw [← final] at found
            obtain ⟨-, before, r', placed, numbered, listed, -, advanced⟩ :=
              item_of_transition valid going found member
            obtain rfl : before = 1 := by omega
            obtain rfl : r = r' := Option.some.inj (first.symm.trans numbered)
            obtain ⟨row', found', member'⟩ := advanced (by omega)
            cases linked with
            | cons linked going' stands' =>
                obtain ⟨-, before, r', placed', numbered', listed', rooted, -⟩ :=
                  item_of_transition valid going' found' member'
                obtain rfl : before = 0 := by omega
                obtain rfl : r = r' := Option.some.inj (first.symm.trans numbered')
                rw [symbols] at listed listed'
                obtain ⟨_, val, _, word⟩ := closing
                obtain ⟨_, val', _, word'⟩ := opening
                obtain rfl := Option.some.inj listed
                obtain rfl := Option.some.inj listed'
                obtain ⟨eof, covers, ends, -⟩ := stands
                obtain rfl : word = [eof] := covers
                have bare : deeper = [] := by
                  cases linked with
                  | nil => rfl
                  | cons deep below stood =>
                      exact absurd (rooted rfl rfl)
                        ((Linked.cons deep below stood).top_ne_zero valid)
                subst bare
                refine ⟨word', eof, config.pending, ?_, ends, ?_⟩
                · rw [← whole]
                  simp [Frame.words]
                · rw [← ends]
                  exact stands' bottom (0, 0) eof config.pending foundBottom entered rfl
      · exact absurd accepts (by simp)
    · split at accepts
      · split at accepts
        · exact absurd accepts reduceBy_ne_accept
        · exact absurd accepts (by simp)
      · split at accepts
        · exact absurd accepts (by simp)
        · split at accepts
          · exact absurd accepts (by simp)
          · exact absurd accepts reduceBy_ne_accept
          · exact absurd accepts (by simp)

/-- **Exactness.** The parser accepts an ended input exactly with the values of the
filtered derivations of the start symbol. -/
theorem accepts_iff_reduces {act : LineActions V} (valid : validItems g tables = true)
    (checked : validate g tables filter = true) (carries : Carries act sem h) {name : N} {kind : T}
    (starts : validStart g tables name kind = true) {lexemes : List (Lexeme T V)}
    {eof : Lexeme T V} (apart : ∀ lexeme ∈ lexemes, lexeme.kind ≠ kind) (ends : eof.kind = kind)
    {value : W} :
    (∃ result, Accepts g tables act (lexemes ++ [eof]) result ∧ h result = value) ↔
      Reduces g filter sem (0, 0) name (lexemes.map (Lexeme.token h)) kind value := by
  constructor
  · rintro ⟨result, accepted, rfl⟩
    obtain ⟨covered, eof', rest, same, ends', reduced⟩ :=
      reduces_of_accepts valid checked carries starts accepted
    have shorter : covered = lexemes := by
      rcases List.append_eq_append_iff.mp same with ⟨more, rfl, tail⟩ | ⟨more, rfl, tail⟩
      · cases more with
        | nil => simp
        | cons first more =>
            obtain ⟨-, impossible⟩ := List.cons.inj tail
            exact absurd impossible (by simp)
      · cases more with
        | nil => simp
        | cons first more =>
            obtain ⟨rfl, -⟩ := List.cons.inj tail
            exact absurd ends' (apart _ (by simp))
    rw [← shorter]
    exact reduced
  · intro reduced
    exact accepts_of_reduces checked carries starts reduced rfl ends

end Runs

end LR
