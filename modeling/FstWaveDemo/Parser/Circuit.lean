import FstWaveDemo.LR.Tree
import FstWaveDemo.Parser.Derivation
import FstWaveDemo.Parser.Lines

/-! # Parsed texts

One run of scanner and parser on a text (`FstWaveDemo.Parse`), with the parse tree of its
tokens. Circuits of one module with one statement are derived from the statement
(`FstWaveDemo.Parse.of_statement`).
-/

namespace FstWaveDemo

/-- A parse tree of the grammar file. -/
abbrev ParseTree := LR.Tree Kind Val

namespace Lexical

variable {s s' : Lexical} {text rest : Text} {lexemes : List Lexeme}

/-- No token within a text has the kind of the end of input. -/
theorem step_ne_eof {lexeme : Lexeme} (stepped : s.step text = .token lexeme s' rest) :
    lexeme.kind ≠ .token .eof := by
  have checked : ∀ mode, ((Rules.of mode).all fun r =>
      r.action.names.all fun name => decide (name ≠ .eof)) = true := by
    intro mode
    cases mode <;> decide +kernel
  intro ends
  rcases step_token stepped with ⟨-, -, rfl, -⟩ | ⟨r, member, w, tail, -, -, made, -⟩
  · exact nomatch ends
  · rcases Action.kind_of_makes made with ⟨-, kind | kind⟩ | ⟨name, named, kind⟩ | ⟨-, c, kind⟩
    · exact nomatch ends.symm.trans kind
    · exact nomatch ends.symm.trans kind
    · obtain rfl := Kind.token.inj (ends.symm.trans kind)
      exact of_decide_eq_true
        (List.all_eq_true.mp (List.all_eq_true.mp (checked s.mode) r member) _ named) rfl
    · exact nomatch ends.symm.trans kind

/-- The lines of scanned tokens do not decrease. -/
theorem Scanned.sorted {lineno : Nat} {eof : Lexeme} (scanned : Scanned lineno text lexemes eof) :
    (lexemes ++ [eof]).Pairwise fun first second => first.line ≤ second.line := by
  obtain ⟨s, scans, ended⟩ := scanned
  obtain ⟨-, each, sorted⟩ := scans.lines
  have here : eof.line = s.lineno := by
    rw [step, atEof] at ended
    split at ended
    · split at ended
      · cases ended
      · obtain rfl := Step.eof.inj ended
        rfl
    · obtain rfl := Step.eof.inj ended
      rfl
  refine List.pairwise_append.mpr ⟨sorted, List.pairwise_singleton _ _, fun lexeme member last
    listed => ?_⟩
  rw [List.mem_singleton.mp listed, here]
  exact (each lexeme member).2

/-- The kinds of scanned tokens, and of the end of input. -/
theorem Scanned.kinds {lineno : Nat} {eof : Lexeme} (scanned : Scanned lineno text lexemes eof) :
    (∀ lexeme ∈ lexemes, lexeme.kind ≠ .token .eof) ∧ eof.kind = .token .eof := by
  obtain ⟨s, scans, ended⟩ := scanned
  constructor
  · intro lexeme member
    obtain ⟨_, _, _, _, _, _, stepped⟩ := scans.returned member
    exact step_ne_eof stepped
  · rw [step, atEof] at ended
    split at ended
    · split at ended
      · cases ended
      · obtain rfl := Step.eof.inj ended
        rfl
    · obtain rfl := Step.eof.inj ended
      rfl

end Lexical

/-- A run of scanner and parser that accepts a text. -/
structure Parse (lineno : Nat) (text : Text) where
  lexemes : List Lexeme
  eof : Lexeme
  root : PNode
  list : List PNode
  tree : ParseTree
  scanned : Lexical.Scanned lineno text lexemes eof
  accepted : Syntax.Accepts (lexemes ++ [eof]) root list
  built : LR.Accepts grammar tables LR.Tree.build ((lexemes ++ [eof]).map LR.Lexeme.leaf) tree
  evaluated : tree.eval act = some (.result root list)

namespace Parse

variable {lineno : Nat} {text : Text}

/-- The syntax tree has a node. -/
def Holds (parse : Parse lineno text) (p : PNode) : Prop :=
  Val.Has (.result parse.root parse.list) p

/-- Every accepted text has a parse. -/
theorem of_accepts {lexemes : List Lexeme} {eof : Lexeme} {root : PNode} {list : List PNode}
    (scanned : Lexical.Scanned lineno text lexemes eof)
    (accepted : Syntax.Accepts (lexemes ++ [eof]) root list) :
    ∃ parse : Parse lineno text, parse.lexemes = lexemes ∧ parse.root = root ∧
      parse.list = list := by
  obtain ⟨tree, built, evaluated⟩ := LR.Tree.of_accepts accepted
  exact ⟨⟨lexemes, eof, root, list, tree, scanned, accepted, built, evaluated⟩, rfl, rfl, rfl⟩

/-- The list that a parse leaves is unique. -/
theorem list_eq {text' : Text} (parse : Parse lineno text) (same : text = text')
    (parse' : Parse lineno text') : parse.list = parse'.list := by
  subst same
  obtain ⟨last, steps, ended⟩ := parse.accepted
  obtain ⟨last', steps', ended'⟩ := parse'.accepted
  obtain ⟨lexemes, eof⟩ := parse.scanned.unique parse'.scanned
  rw [lexemes, eof] at steps
  have same := LR.outcome_unique steps ended (fun _ impossible => by cases impossible) steps' ended'
    fun _ impossible => by cases impossible
  exact (Val.result.inj (LR.Outcome.accept.inj same)).2

/-- The parse tree is a derivation of the tokens. -/
theorem fits (parse : Parse lineno text) :
    LR.Tree.Fits grammar (.nonterm .circuit) parse.tree ∧ parse.tree.word = parse.lexemes :=
  LR.Tree.fits_of_accepts tables_validItems tables_validate tables_validStart parse.scanned.kinds.1
    parse.scanned.kinds.2 parse.built

/-- No token of the parse tree is after the line of a node above it. -/
theorem late (parse : Parse lineno text) : LR.Tree.Late parse.tree :=
  LR.Tree.late_of_accepts parse.scanned.sorted parse.built

end Parse

section Rules

open LR.Tree (Fits)

/-- A check of all productions with their numbers. -/
theorem production_check (check : Production → Nat → Bool)
    (checked : (productions.zipIdx.all fun entry => check entry.1 entry.2) = true) {number : Nat}
    {p : Production} (found : productions[number]? = some p) : check p number = true :=
  List.all_eq_true.mp checked (p, number) (List.mem_zipIdx_iff_getElem?.mpr found)

/-- The production of a rule of the grammar. -/
theorem production_of_rule {number : Nat} {r : LR.Rule Kind Nonterminal}
    (numbered : grammar.rules[number]? = some r) :
    ∃ p, productions[number]? = some p ∧ r = ⟨p.lhs, p.rhs, p.prec⟩ := by
  rw [grammar, List.getElem?_map] at numbered
  obtain ⟨p, found, same⟩ := Option.map_eq_some_iff.mp numbered
  exact ⟨p, found, same.symm⟩

/-- A tree of a nonterminal is by one of its productions. -/
theorem node_of_fits {name : Nonterminal} {tree : ParseTree}
    (fits : Fits grammar (.nonterm name) tree) :
    ∃ number line children p, tree = .node number line children ∧
      productions[number]? = some p ∧ p.lhs = name ∧
      List.Forall₂ (Fits grammar) p.rhs children := by
  cases fits with
  | node numbered fit =>
      obtain ⟨p, found, rfl⟩ := production_of_rule numbered
      exact ⟨_, _, _, p, rfl, found, rfl, fit⟩

/-- A symbol of the part of the grammar with the nonterminals `inner`, the nonterminals
`border` at its border, and the given kinds of tokens. -/
def leadsTo (inner border : List Nonterminal) (kinds : Kind → Bool) :
    LR.Symbol Kind Nonterminal → Bool
  | .term kind => kinds kind
  | .nonterm name => decide (name ∈ inner) || decide (name ∈ border)

/-- A token under a symbol of a part of the grammar is of the kinds of that part, or within a
phrase of the border. -/
theorem part_of_mem (inner border : List Nonterminal) (kinds : Kind → Bool)
    (checked : (productions.zipIdx.all fun entry => decide (entry.1.lhs ∉ inner) ||
      entry.1.rhs.all (leadsTo inner border kinds)) = true)
    {symbol : LR.Symbol Kind Nonterminal} {tree : ParseTree} (fits : Fits grammar symbol tree)
    (start : leadsTo inner border kinds symbol = true) {lexeme : Lexeme}
    (member : lexeme ∈ tree.word) :
    kinds lexeme.kind = true ∨ ∃ name ∈ border, ∃ part, Fits grammar (.nonterm name) part ∧
      LR.Tree.Within part tree ∧ lexeme ∈ part.word := by
  have leads {symbol : LR.Symbol Kind Nonterminal}
      (own : leadsTo inner border kinds symbol = true) :
      LR.Tree.Leads (fun name => name ∈ inner) (fun name => name ∈ border)
        (fun kind => kinds kind = true) symbol := by
    cases symbol with
    | term kind => exact own
    | nonterm name =>
        rw [leadsTo, Bool.or_eq_true, decide_eq_true_eq, decide_eq_true_eq] at own
        exact own
  have closed (number : Nat) (r : LR.Rule Kind Nonterminal) (numbered : grammar.rules[number]? = r)
      (part : r.lhs ∈ inner) : ∀ symbol ∈ r.rhs, LR.Tree.Leads (fun name => name ∈ inner)
        (fun name => name ∈ border) (fun kind => kinds kind = true) symbol := by
    obtain ⟨p, found, rfl⟩ := production_of_rule numbered
    have own := production_check (fun p _ => decide (p.lhs ∉ inner) ||
      p.rhs.all (leadsTo inner border kinds)) checked found
    simp only [part, not_true_eq_false, decide_false, Bool.false_or, List.all_eq_true] at own
    exact fun symbol listed => leads (own symbol listed)
  rcases fits.leads closed (leads start) member with kind | ⟨name, part, listed, rest⟩
  · exact Or.inl kind
  · exact Or.inr ⟨name, listed, part, rest⟩

end Rules

section Derivations

variable {name : Name} {word : List Tok} {p : PNode} {list : List PNode}

theorem parses_no_info (context : Nat × Nat) (next : Kind) :
    Parses context .info [] next (.str none) :=
  parses_free 23 rfl .nil rfl rfl

/-- The statement `skip`. -/
theorem parses_skip : Parses (94, 1) .statement [kw .Skip] (.token .DEDENT) (.pnode .null) :=
  parses_free 119 rfl (derivable_term rfl (derivable_last (parses_no_info _ _))) rfl rfl

/-- A body of one statement, which does not begin like a port. -/
theorem parses_body
    (first : LR.peek word (.token .DEDENT) ≠ .token .Input ∧
      LR.peek word (.token .DEDENT) ≠ .token .Output)
    (statement : Parses (94, 1) .statement word (.token .DEDENT) (.pnode p)) :
    ∃ q, Parses (126, 7) .statements word (.token .DEDENT) (.pnode q) ∧
      ∀ r, r.type?.isSome → p.Has r → q.Has r := by
  have distinct {name : TokenName} (other : LR.peek word (.token .DEDENT) ≠ .token name) :
      LR.has (tokenMask name) (LR.code (LR.peek word (.token .DEDENT))) = false := by
    rw [tokenMask, LR.has_bit, decide_eq_false_iff_not]
    exact fun same => other (LR.Coded.code_injective same).symm
  have kept : LR.has (conflicts (126, 7) 93) (LR.code (LR.peek word (.token .DEDENT))) = false := by
    change LR.has (Nat.lor (tokenMask .Input) (tokenMask .Output)) _ = false
    rw [LR.has_lor, distinct first.1, distinct first.2, Bool.or_self]
  have none : Parses (126, 7) .statements [] (LR.peek word (.token .DEDENT))
      (.pnode (.new .P_STATEMENTS 0)) := parses 93 rfl .nil kept rfl
  have body : Derivable 94 0 (126, 7) [n .statements, n .statement] ([] ++ word) (.token .DEDENT)
      [.pnode (.new .P_STATEMENTS 0), .pnode p] := .nonterm none (derivable_last statement)
  cases p with
  | null =>
      refine ⟨_, parses_free 94 rfl body rfl rfl, fun r typed has => ?_⟩
      cases has
      exact nomatch typed
  | undefined =>
      exact ⟨_, parses_free 94 rfl body rfl rfl, fun r _ has => .child List.mem_cons_self has⟩
  | node =>
      exact ⟨_, parses_free 94 rfl body rfl rfl, fun r _ has => .child List.mem_cons_self has⟩

/-- A module with one statement. -/
theorem parses_module (name : Name)
    (first : LR.peek word (.token .DEDENT) ≠ .token .Input ∧
      LR.peek word (.token .DEDENT) ≠ .token .Output)
    (statement : Parses (94, 1) .statement word (.token .DEDENT) (.pnode p)) :
    ∃ q, (∀ next, Parses (155, 1) .module
      (kw .Module :: name.token :: ch ':' :: kw .INDENT :: (word ++ [kw .DEDENT])) next
      (.pnode q)) ∧ q.type? = some .P_MOD ∧ q.name? = some name.text ∧
        ∀ r, r.type?.isSome → p.Has r → q.Has r := by
  obtain ⟨q, statements, body⟩ := parses_body first statement
  have ports (next : Kind) : Parses (126, 6) .ports [] next (.pnode (.new .P_PORTS (-1))) :=
    parses_free 122 rfl .nil rfl rfl
  have private' (next : Kind) : Parses (155, 1) .opt_public [] next .undef :=
    parses_free 124 rfl .nil rfl rfl
  refine ⟨_, fun _ => parses_free 126 rfl (derivable_empty (private' _) (derivable_term rfl
    (derivable_single (name.parses _ _) (derivable_term rfl
      (derivable_empty (parses_no_info _ _) (derivable_term rfl
        (derivable_empty (ports _) (.nonterm statements
          (derivable_term rfl .nil))))))))) rfl rfl, rfl, rfl, fun r typed has => ?_⟩
  exact .child (List.mem_cons_of_mem _ List.mem_cons_self) (body r typed has)

/-- The tokens of a module whose only statement is `skip`. -/
def skipModule (name : Name) : List Tok :=
  kw .Module :: name.token :: ch ':' :: kw .INDENT :: ([kw .Skip] ++ [kw .DEDENT])

/-- Such modules one after another. -/
theorem parses_skipModules (context : Nat × Nat) (names : List Name) (next : Kind) :
    ∃ list, Parses context .cir_mods (names.flatMap skipModule) next (.plist list) ∧
      list.map PNode.name? = names.map fun name => some name.text := by
  induction names using List.reverseRecOn generalizing next with
  | nil => exact ⟨[], parses_free 154 rfl .nil (conflicts_other (by decide)) rfl, rfl⟩
  | append_singleton names name ih =>
      have first : LR.peek [kw .Skip] (.token .DEDENT) ≠ .token .Input ∧
          LR.peek [kw .Skip] (.token .DEDENT) ≠ .token .Output := by
        decide
      obtain ⟨p, module, typed, named, -⟩ := parses_module name first parses_skip
      obtain ⟨list, before, same⟩ := ih (LR.peek (skipModule name) next)
      refine ⟨PList.append list p, ?_, ?_⟩
      · rw [List.flatMap_append, List.flatMap_singleton]
        exact parses_free 155 rfl (.nonterm before (derivable_last (module next)))
          (conflicts_other (by decide)) rfl
      · cases p with
        | node =>
            change (list ++ [_]).map PNode.name? = _
            rw [List.map_append, List.map_append, List.map_singleton, List.map_singleton, same,
              named]
        | _ => exact nomatch typed

/-- A circuit without its version and name. -/
theorem parses_circuit
    (modules : Parses (2, 1) .cir_mods word (.token .DEDENT) (.plist list)) :
    Parses (0, 0) .circuit (kw .INDENT :: (word ++ [kw .DEDENT])) (.token .eof)
      (.result .null list) :=
  parses_free 2 rfl (derivable_term rfl (.nonterm modules (derivable_term rfl .nil))) rfl rfl

/-- The tokens of the version 3.3.0. -/
def versionTokens : List Tok :=
  [kw .Firrtl, kw .Version, tok .INT ['3'], ch '.', tok .INT ['3'], ch '.', tok .INT ['0']]

/-- A circuit with its version. -/
theorem parses_versioned (name : Name)
    (modules : Parses (1, 7) .cir_mods word (.token .DEDENT) (.plist list)) :
    ∃ root, Parses (0, 0) .circuit (versionTokens ++ (kw .Circuit :: name.token :: ch ':' ::
      kw .INDENT :: (word ++ [kw .DEDENT]))) (.token .eof) (.result root list) ∧
        root.type? = some .P_CIRCUIT := by
  have version : Parses (0, 0) .version versionTokens (.token .Circuit) .undef :=
    parses_free 153 rfl (derivable_term rfl (derivable_term rfl (derivable_term rfl
      (derivable_term rfl (derivable_term rfl (derivable_term rfl (derivable_term rfl .nil)))))))
      rfl rfl
  have annotations (next : Kind) : Parses (1, 4) .annotations [] next .undef :=
    parses_free 151 rfl .nil rfl rfl
  exact ⟨_, parses_free 1 rfl (.nonterm version (derivable_term rfl
    (derivable_single (name.parses _ _) (derivable_term rfl (derivable_empty (annotations _)
      (derivable_empty (parses_no_info _ _) (derivable_term rfl (.nonterm modules
        (derivable_term rfl .nil))))))))) rfl rfl, rfl⟩

end Derivations

/-- The lexemes have the given kinds and texts. -/
def spell : List Lexeme → List Tok → Bool
  | [], [] => true
  | lexeme :: lexemes, token :: tokens =>
      decide (lexeme.kind = token.kind) &&
        (match lexeme.val, token.val with
          | .undef, .undef => true
          | .str text, .str text' => decide (text = text')
          | _, _ => false) && spell lexemes tokens
  | _, _ => false

theorem map_token_of_spell {lexemes : List Lexeme} {tokens : List Tok}
    (spelled : spell lexemes tokens = true) :
    lexemes.map (LR.Lexeme.token Val.erase) = tokens := by
  induction lexemes generalizing tokens with
  | nil =>
      cases tokens with
      | nil => rfl
      | cons => exact nomatch spelled
  | cons lexeme lexemes ih =>
      cases tokens with
      | nil => exact nomatch spelled
      | cons token tokens =>
          rw [spell, Bool.and_eq_true, Bool.and_eq_true, decide_eq_true_eq] at spelled
          obtain ⟨⟨kind, val⟩, others⟩ := spelled
          rw [List.map_cons, ih others]
          refine congrArg (· :: tokens) ?_
          obtain ⟨⟨kind', val'⟩, line⟩ := lexeme
          obtain ⟨kind'', val''⟩ := token
          obtain rfl : kind' = kind'' := kind
          cases val' with
          | undef =>
              cases val'' with
              | undef => rfl
              | _ => exact absurd val (by simp)
          | str text =>
              cases val'' with
              | str text' =>
                  rw [of_decide_eq_true val]
                  rfl
              | _ => exact absurd val (by simp)
          | _ => exact absurd val (by simp)

/-- A text is accepted if its tokens are those of a circuit. -/
theorem Parse.of_scanned {lineno : Nat} {text : Text} {lexemes : List Lexeme} {eof : Lexeme}
    (scanned : Lexical.Scanned lineno text lexemes eof) {root : PNode} {list : List PNode}
    (parsed : Parses (0, 0) .circuit (lexemes.map (LR.Lexeme.token Val.erase)) (.token .eof)
      (.result root list)) :
    ∃ parse : Parse lineno text, parse.lexemes = lexemes ∧ parse.root.erase = root ∧
      parse.list.map PNode.erase = list := by
  obtain ⟨root', list', accepted, root, list⟩ :=
    (accepts_iff scanned.kinds.1 scanned.kinds.2).mpr parsed
  obtain ⟨parse, same, rfl, rfl⟩ := Parse.of_accepts scanned accepted
  exact ⟨parse, same, root, list⟩

/-- A text is accepted if its tokens are those of a module in a circuit. -/
theorem Parse.of_module {lineno : Nat} {text : Text} {lexemes : List Lexeme} {eof : Lexeme}
    (scanned : Lexical.Scanned lineno text lexemes eof) {word : List Tok} {p : PNode}
    (tokens : lexemes.map (LR.Lexeme.token Val.erase) = kw .INDENT :: (word ++ [kw .DEDENT]))
    (module : Parses (155, 1) .module word (.token .DEDENT) (.pnode p))
    (typed : p.type?.isSome) :
    ∃ parse : Parse lineno text, parse.lexemes = lexemes ∧
      ∀ r, r.type?.isSome → p.Has r → ∃ own, parse.Holds own ∧ own.erase = r := by
  have circuit := parses_circuit (parses_free 155 rfl (derivable_empty
    (parses_free 154 rfl .nil rfl rfl) (derivable_last module)) rfl rfl)
  rw [← tokens] at circuit
  obtain ⟨parse, own, root, all⟩ := Parse.of_scanned scanned circuit
  refine ⟨parse, own, fun r typed' has => Val.has_of_erase ?_⟩
  rw [all]
  refine Or.inr ⟨p, ?_, has⟩
  cases p with
  | null => exact nomatch typed
  | _ => exact List.mem_singleton_self _

/-- The name `M`. -/
def nameM : Name := .id ⟨['M'], by decide +kernel⟩

/-- A text is accepted if its tokens are those of a module `M` with one statement. -/
theorem Parse.of_statement (fuel lineno : Nat) (text : Text) {word : List Tok} {p : PNode}
    (statement : Parses (94, 1) .statement word (.token .DEDENT) (.pnode p))
    (first : LR.peek word (.token .DEDENT) ≠ .token .Input ∧
      LR.peek word (.token .DEDENT) ≠ .token .Output)
    (scanned : (Lexical.run fuel (Lexical.new lineno) text).any (fun result => spell result.1
      (kw .INDENT :: (kw .Module :: nameM.token :: ch ':' :: kw .INDENT :: (word ++ [kw .DEDENT]) ++
        [kw .DEDENT]))) = true) :
    ∃ parse : Parse lineno text, parse.lexemes.map (LR.Lexeme.token Val.erase) =
      kw .INDENT :: (kw .Module :: nameM.token :: ch ':' :: kw .INDENT :: (word ++ [kw .DEDENT]) ++
        [kw .DEDENT]) ∧
      ∀ r, r.type?.isSome → p.Has r → ∃ own, parse.Holds own ∧ own.erase = r := by
  obtain ⟨q, module, typed, -, within⟩ := parses_module nameM first statement
  obtain ⟨⟨lexemes, s⟩, found, spelled⟩ := (Option.any_eq_true _ _).mp scanned
  obtain ⟨eof, scanned⟩ := Lexical.scanned_of_run found
  have tokens := map_token_of_spell spelled
  obtain ⟨parse, rfl, holds⟩ := Parse.of_module scanned tokens (module _) (by rw [typed]; rfl)
  exact ⟨parse, tokens, fun r typed' has => holds r typed' (within r typed' has)⟩

end FstWaveDemo
