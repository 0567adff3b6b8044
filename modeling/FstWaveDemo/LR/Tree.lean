import FstWaveDemo.LR.Sound
import Mathlib

/-! # Parse trees

The run of the parser whose actions build parse trees (`LR.Tree.build`). Whatever the
parser accepts has a tree that evaluates to the accepted value (`LR.Tree.of_accepts`); the
tree derives the tokens of the input (`LR.Tree.fits_of_accepts`), and every node of it
carries the line at its reduction, which no token below exceeds
(`LR.Tree.late_of_accepts`).
-/

namespace LR

/-- A parse tree: a token, or a rule with the line at its reduction and the trees of its
right side. -/
inductive Tree (T V : Type)
  | leaf (lexeme : Lexeme T V)
  | node (rule line : Nat) (children : List (Tree T V))

/-- The token with itself as its value. -/
def Lexeme.leaf {T V : Type} (lexeme : Lexeme T V) : Lexeme T (Tree T V) :=
  ⟨⟨lexeme.kind, .leaf lexeme⟩, lexeme.line⟩

namespace Tree

section Trees

variable {T V : Type}

/-- The actions that build the tree. -/
def build : LineActions (Tree T V) := fun rule line children => some (.node rule line children)

mutual

/-- The value of a tree under the actions of a parser. -/
def eval (act : LineActions V) : Tree T V → Option V
  | leaf lexeme => some lexeme.val
  | node rule line children => (evalAll act children).bind (act rule line)

/-- The values of trees. -/
def evalAll (act : LineActions V) : List (Tree T V) → Option (List V)
  | [] => some []
  | tree :: trees => (eval act tree).bind fun value =>
      (evalAll act trees).map fun values => value :: values

end

mutual

/-- The tokens of a tree. -/
def word : Tree T V → List (Lexeme T V)
  | leaf lexeme => [lexeme]
  | node _ _ children => words children

/-- The tokens of trees. -/
def words : List (Tree T V) → List (Lexeme T V)
  | [] => []
  | tree :: trees => word tree ++ words trees

end

mutual

/-- The tree with the lines of its nodes forgotten. -/
def erase : Tree T V → Tree T V
  | leaf lexeme => leaf lexeme
  | node rule _ children => node rule 0 (eraseAll children)

/-- The trees with the lines of their nodes forgotten. -/
def eraseAll : List (Tree T V) → List (Tree T V)
  | [] => []
  | tree :: trees => erase tree :: eraseAll trees

end

@[simp] theorem eraseAll_eq_map (trees : List (Tree T V)) : eraseAll trees = trees.map erase := by
  induction trees with
  | nil => rfl
  | cons tree trees ih => rw [eraseAll, ih, List.map_cons]

@[simp] theorem words_append (first second : List (Tree T V)) :
    words (first ++ second) = words first ++ words second := by
  induction first with
  | nil => rfl
  | cons tree first ih => rw [List.cons_append, words, words, ih, List.append_assoc]

theorem mem_words {trees : List (Tree T V)} {lexeme : Lexeme T V} :
    lexeme ∈ words trees ↔ ∃ tree ∈ trees, lexeme ∈ tree.word := by
  induction trees with
  | nil => simp [words]
  | cons tree trees ih => simp [words, ih]

/-- One tree is a part of the other. -/
inductive Within : Tree T V → Tree T V → Prop
  | refl {tree : Tree T V} : Within tree tree
  | child {rule line : Nat} {children : List (Tree T V)} {part tree : Tree T V}
      (member : tree ∈ children) (within : Within part tree) :
      Within part (.node rule line children)

theorem Within.trans {small part tree : Tree T V} (first : Within small part)
    (second : Within part tree) : Within small tree := by
  induction second with
  | refl => exact first
  | child member _ ih => exact .child member (ih first)

mutual

/-- A token of a tree is one of its leaves. -/
theorem within_of_mem {lexeme : Lexeme T V} : (tree : Tree T V) → lexeme ∈ tree.word →
    Within (.leaf lexeme) tree
  | .leaf _, member => by
      obtain rfl := List.mem_singleton.mp member
      exact .refl
  | .node _ _ children, member => by
      obtain ⟨tree, listed, within⟩ := within_of_mem_words children member
      exact .child listed within

/-- A token of trees is a leaf of one of them. -/
theorem within_of_mem_words {lexeme : Lexeme T V} : (trees : List (Tree T V)) →
    lexeme ∈ words trees → ∃ tree ∈ trees, Within (.leaf lexeme) tree
  | [], member => nomatch member
  | tree :: trees, member => by
      rcases List.mem_append.mp member with first | others
      · exact ⟨tree, List.mem_cons_self, within_of_mem tree first⟩
      · obtain ⟨other, listed, within⟩ := within_of_mem_words trees others
        exact ⟨other, List.mem_cons_of_mem _ listed, within⟩

end

/-- The tokens of a part are consecutive. -/
theorem Within.infix {part tree : Tree T V} (within : Within part tree) :
    part.word <:+: tree.word := by
  induction within with
  | refl => exact List.infix_refl _
  | @child rule line children part tree member _ ih =>
      obtain ⟨before, after, rfl⟩ := List.append_of_mem member
      refine ih.trans ⟨words before, words after, ?_⟩
      rw [word, words_append, words, List.append_assoc]

/-- One tree is a part of the other, after the given tokens. -/
inductive Occurs : List (Lexeme T V) → Tree T V → Tree T V → Prop
  | refl {tree : Tree T V} : Occurs [] tree tree
  | child {rule line : Nat} {before after : List (Tree T V)} {left : List (Lexeme T V)}
      {part tree : Tree T V} (occurs : Occurs left part tree) :
      Occurs (words before ++ left) part (.node rule line (before ++ tree :: after))

theorem Within.occurs {part tree : Tree T V} (within : Within part tree) :
    ∃ left, Occurs left part tree := by
  induction within with
  | refl => exact ⟨[], .refl⟩
  | child member _ ih =>
      obtain ⟨left, occurs⟩ := ih
      obtain ⟨before, after, rfl⟩ := List.append_of_mem member
      exact ⟨_, .child occurs⟩

theorem Occurs.within {left : List (Lexeme T V)} {part tree : Tree T V}
    (occurs : Occurs left part tree) : Within part tree := by
  induction occurs with
  | refl => exact .refl
  | child _ ih => exact .child (List.mem_append_right _ List.mem_cons_self) ih

/-- The tokens of a part stand after the given ones. -/
theorem Occurs.word {left : List (Lexeme T V)} {part tree : Tree T V}
    (occurs : Occurs left part tree) : ∃ right, tree.word = left ++ (part.word ++ right) := by
  induction occurs with
  | @refl tree => exact ⟨[], by rw [List.append_nil, List.nil_append]⟩
  | @child rule line before after left part tree _ ih =>
      obtain ⟨right, split⟩ := ih
      refine ⟨right ++ words after, ?_⟩
      rw [Tree.word, words_append, words, split]
      simp

/-- Every part of a tree with a value has one. -/
theorem Within.eval {act : LineActions V} {part tree : Tree T V} (within : Within part tree)
    {value : V} (evaluated : tree.eval act = some value) : ∃ own, part.eval act = some own := by
  induction within generalizing value with
  | refl => exact ⟨value, evaluated⟩
  | @child rule line children part tree member _ ih =>
      rw [Tree.eval] at evaluated
      obtain ⟨values, all, -⟩ := Option.bind_eq_some_iff.mp evaluated
      clear evaluated
      induction children generalizing values with
      | nil => exact absurd member List.not_mem_nil
      | cons first others ihList =>
          rw [evalAll] at all
          obtain ⟨own, head, rest⟩ := Option.bind_eq_some_iff.mp all
          obtain ⟨later, others', -⟩ := Option.map_eq_some_iff.mp rest
          rcases List.mem_cons.mp member with rfl | member
          · exact ih head
          · exact ihList member later others'

/-- The value of one of several trees. -/
theorem evalAll_getElem {act : LineActions V} {trees : List (Tree T V)} {values : List V}
    (all : evalAll act trees = some values) {i : Nat} {tree : Tree T V}
    (found : trees[i]? = some tree) : ∃ own, tree.eval act = some own ∧ values[i]? = some own := by
  induction trees generalizing values i with
  | nil => exact nomatch found
  | cons first others ih =>
      rw [evalAll] at all
      obtain ⟨own, head, rest⟩ := Option.bind_eq_some_iff.mp all
      obtain ⟨later, tail, rfl⟩ := Option.map_eq_some_iff.mp rest
      cases i with
      | zero =>
          obtain rfl := Option.some.inj found
          exact ⟨own, head, rfl⟩
      | succ i => exact ih tail found

/-- No token below a node is on a later line than the one carried by the node. -/
def Late (tree : Tree T V) : Prop :=
  ∀ rule line children, Within (.node rule line children) tree →
    ∀ lexeme ∈ words children, lexeme.line ≤ line

theorem late_leaf (lexeme : Lexeme T V) : Late (.leaf lexeme) := by
  intro rule line children within
  cases within

/-- A node above late trees is late if its line is not before any of their tokens. -/
theorem late_node {rule line : Nat} {children : List (Tree T V)}
    (own : ∀ lexeme ∈ words children, lexeme.line ≤ line)
    (below : ∀ tree ∈ children, Late tree) : Late (.node rule line children) := by
  intro rule' line' children' within
  cases within with
  | refl => exact own
  | child member within => exact below _ member rule' line' children' within

end Trees

section Fits

variable {T N V : Type}

/-- A tree is one of a symbol of the grammar. -/
inductive Fits (g : Grammar T N) : Symbol T N → Tree T V → Prop
  | leaf (lexeme : Lexeme T V) : Fits g (.term lexeme.kind) (.leaf lexeme)
  | node {rule line : Nat} {r : Rule T N} {children : List (Tree T V)}
      (numbered : g.rules[rule]? = some r) (fit : List.Forall₂ (Fits g) r.rhs children) :
      Fits g (.nonterm r.lhs) (.node rule line children)

variable {g : Grammar T N}

/-- Every tree in a list is one of a symbol in the list. -/
theorem symbol_of_mem {symbols : List (Symbol T N)} {trees : List (Tree T V)}
    (fit : List.Forall₂ (Fits g) symbols trees) {tree : Tree T V} (member : tree ∈ trees) :
    ∃ symbol ∈ symbols, Fits g symbol tree := by
  induction fit with
  | nil => exact absurd member List.not_mem_nil
  | cons head _ ih =>
      rcases List.mem_cons.mp member with rfl | member
      · exact ⟨_, List.mem_cons_self, head⟩
      · obtain ⟨symbol, listed, fits⟩ := ih member
        exact ⟨symbol, List.mem_cons_of_mem _ listed, fits⟩

/-- Every symbol has its tree. -/
theorem tree_of_mem {symbols : List (Symbol T N)} {trees : List (Tree T V)}
    (fit : List.Forall₂ (Fits g) symbols trees) {symbol : Symbol T N} (member : symbol ∈ symbols) :
    ∃ tree ∈ trees, Fits g symbol tree := by
  induction fit with
  | nil => exact absurd member List.not_mem_nil
  | cons head _ ih =>
      rcases List.mem_cons.mp member with rfl | member
      · exact ⟨_, List.mem_cons_self, head⟩
      · obtain ⟨tree, listed, own⟩ := ih member
        exact ⟨tree, List.mem_cons_of_mem _ listed, own⟩

/-- The trees of a first and a second list of symbols. -/
theorem fit_append {first second : List (Symbol T N)} {trees : List (Tree T V)}
    (fit : List.Forall₂ (Fits g) (first ++ second) trees) :
    ∃ left right, trees = left ++ right ∧ List.Forall₂ (Fits g) first left ∧
      List.Forall₂ (Fits g) second right := by
  induction first generalizing trees with
  | nil => exact ⟨[], trees, rfl, .nil, fit⟩
  | cons symbol first ih =>
      obtain ⟨tree, others, head, rest, rfl⟩ := List.forall₂_cons_left_iff.mp fit
      obtain ⟨left, right, rfl, leads, later⟩ := ih rest
      exact ⟨tree :: left, right, rfl, .cons head leads, later⟩

/-- A tree of a terminal is a token. -/
theorem Fits.term {kind : T} {tree : Tree T V} (fits : Fits g (.term kind) tree) :
    ∃ lexeme, tree = .leaf lexeme ∧ lexeme.kind = kind := by
  generalize same : Symbol.term kind = symbol at fits
  cases fits with
  | leaf lexeme => exact ⟨lexeme, rfl, (Symbol.term.inj same).symm⟩
  | node => exact nomatch same

/-- The nodes of a tree are by rules of the nonterminals that its symbol leads to. -/
theorem Fits.part {S : N → Prop} (closed : ∀ (rule : Nat) (r : Rule T N), g.rules[rule]? = some r →
      S r.lhs → ∀ name, .nonterm name ∈ r.rhs → S name)
    {symbol : Symbol T N} {rule line : Nat} {children : List (Tree T V)} {part tree : Tree T V}
    (fits : Fits g symbol tree) (start : ∀ name, symbol = .nonterm name → S name)
    (within : Within part tree) (node : part = .node rule line children) :
    ∃ r, g.rules[rule]? = some r ∧ S r.lhs ∧ List.Forall₂ (Fits g) r.rhs children := by
  induction within generalizing symbol with
  | refl =>
      subst node
      cases fits with
      | @node _ _ r _ numbered fit => exact ⟨r, numbered, start _ rfl, fit⟩
  | child member _ ih =>
      cases fits with
      | @node rule _ r _ numbered fit =>
          obtain ⟨symbol, listed, own⟩ := symbol_of_mem fit member
          refine ih own (fun name same => ?_) node
          exact closed _ r numbered (start _ rfl) name (same ▸ listed)

/-- A symbol of a part of the grammar: one of the nonterminals `S`, a nonterminal `B` at the
border of the part, or a terminal of the kinds `K`. -/
def Leads (S B : N → Prop) (K : T → Prop) : Symbol T N → Prop
  | .term kind => K kind
  | .nonterm name => S name ∨ B name

/-- A token under a symbol of a part of the grammar is of the kinds of that part, or within a
phrase of the border. -/
theorem Fits.leads {S B : N → Prop} {K : T → Prop} (closed : ∀ (rule : Nat) (r : Rule T N),
      g.rules[rule]? = some r → S r.lhs → ∀ symbol ∈ r.rhs, Leads S B K symbol)
    {symbol : Symbol T N} {tree : Tree T V} (fits : Fits g symbol tree)
    (start : Leads S B K symbol) {lexeme : Lexeme T V} (member : lexeme ∈ tree.word) :
    K lexeme.kind ∨ ∃ name part, B name ∧ Fits g (.nonterm name) part ∧ Within part tree ∧
      lexeme ∈ part.word := by
  have within := within_of_mem tree member
  generalize same : Tree.leaf lexeme = part at within
  induction within generalizing symbol with
  | refl =>
      subst same
      cases fits with
      | leaf lexeme => exact Or.inl start
  | @child rule line children part tree listed within ih =>
      subst same
      cases fits with
      | @node rule _ r _ numbered fit =>
          rcases start with inner | border
          · obtain ⟨symbol, mentioned, own⟩ := symbol_of_mem fit listed
            have inside := within.infix.subset List.mem_cons_self
            rcases ih own (closed _ r numbered inner symbol mentioned) inside rfl
              with kind | ⟨name, part, rest⟩
            · exact Or.inl kind
            · exact Or.inr ⟨name, part, rest.1, rest.2.1, .child listed rest.2.2.1, rest.2.2.2⟩
          · exact Or.inr ⟨_, _, border, .node numbered fit, .refl, member⟩

/-- The nodes of a tree of the grammar are by its rules. -/
theorem Fits.rule {symbol : Symbol T N} {rule line : Nat} {children : List (Tree T V)}
    {tree : Tree T V} (fits : Fits g symbol tree)
    (within : Within (.node rule line children) tree) :
    ∃ r, g.rules[rule]? = some r ∧ List.Forall₂ (Fits g) r.rhs children := by
  obtain ⟨r, numbered, -, fit⟩ := fits.part (S := fun _ => True)
    (fun _ _ _ _ _ _ => trivial) (fun _ _ => trivial) within rfl
  exact ⟨r, numbered, fit⟩

mutual

theorem fits_of_erase : {symbol : Symbol T N} → (tree : Tree T V) → Fits g symbol tree.erase →
    Fits g symbol tree
  | _, .leaf lexeme, fits => fits
  | _, .node rule line children, fits => by
      rw [erase] at fits
      cases fits with
      | node numbered fit => exact .node numbered (fitAll_of_erase children fit)

theorem fitAll_of_erase : {symbols : List (Symbol T N)} → (trees : List (Tree T V)) →
    List.Forall₂ (Fits g) symbols (eraseAll trees) → List.Forall₂ (Fits g) symbols trees
  | _, [], fit => fit
  | _, tree :: trees, fit => by
      rw [eraseAll] at fit
      cases fit with
      | cons head rest => exact .cons (fits_of_erase tree head) (fitAll_of_erase trees rest)

end

mutual

theorem word_erase : (tree : Tree T V) → tree.erase.word = tree.word
  | .leaf _ => rfl
  | .node _ _ children => words_erase children

theorem words_erase : (trees : List (Tree T V)) → words (eraseAll trees) = words trees
  | [] => rfl
  | tree :: trees => by rw [eraseAll, words, words, word_erase tree, words_erase trees]

end

end Fits

section Runs

variable {T N V : Type} [Coded T] [Coded N] {g : Grammar T N} {tables : Tables}
  {act : LineActions V}

variable (act) in
/-- A stack entry, and one with a tree that evaluates to its value. -/
def Mirrored (entry : Nat × V) (entry' : Nat × Tree T V) : Prop :=
  entry'.1 = entry.1 ∧ entry'.2.eval act = some entry.2

omit [Coded T] in
theorem topState_of_mirrored {stack : List (Nat × V)} {stack' : List (Nat × Tree T V)}
    (mirrored : List.Forall₂ (Mirrored act) stack stack') : topState stack' = topState stack := by
  cases mirrored with
  | nil => rfl
  | cons head _ => exact head.1

variable (act) in
/-- A configuration of the run that builds trees, and one that evaluates them. -/
structure Mirrors (config : Config T V) (built : Config T (Tree T V)) : Prop where
  stack : List.Forall₂ (Mirrored act) config.stack built.stack
  lookahead : built.lookahead = config.lookahead.map Lexeme.leaf
  line : built.line = config.line
  input : built.input = config.input.map Lexeme.leaf

omit [Coded T] in
theorem evalAll_of_forall₂ {trees : List (Tree T V)} {values : List V}
    (each : List.Forall₂ (fun value tree => eval act tree = some value) values trees) :
    evalAll act trees = some values := by
  induction each with
  | nil => rfl
  | cons head _ ih => rw [evalAll, head, Option.bind_some, ih, Option.map_some]

variable {config after : Config T V} {built : Config T (Tree T V)}

omit [Coded T] in
/-- Building reduces as evaluating does. -/
theorem Mirrors.reduce (mirrors : Mirrors act config built) {rule : Nat}
    (reduced : reduceBy g tables act rule config = .next after) :
    ∃ after', reduceBy g tables build rule built = .next after' ∧ Mirrors act after after' := by
  obtain ⟨r, value, goto, numbered, evaluated, going, rfl⟩ := reduceBy_next reduced
  have handle : evalAll act ((built.stack.take r.rhs.length).reverse.map Prod.snd) =
      some ((config.stack.take r.rhs.length).reverse.map Prod.snd) := by
    refine evalAll_of_forall₂ ?_
    rw [List.forall₂_map_left_iff, List.forall₂_map_right_iff, List.forall₂_reverse_iff]
    exact (List.forall₂_take _ mirrors.stack).imp fun _ _ each => each.2
  have rest := List.forall₂_drop r.rhs.length mirrors.stack
  have below := topState_of_mirrored rest
  refine ⟨{ built with stack := (goto.target, .node rule built.line
    ((built.stack.take r.rhs.length).reverse.map Prod.snd)) :: built.stack.drop r.rhs.length },
    ?_, ?_⟩
  · simp only [reduceBy, numbered, build, below, going]
  · refine ⟨.cons ⟨rfl, ?_⟩ rest, mirrors.lookahead, mirrors.line, mirrors.input⟩
    rw [eval, handle, Option.bind_some, mirrors.line, evaluated]

omit [Coded T] in
/-- Building reads the tokens that evaluating reads. -/
theorem Mirrors.fetch (mirrors : Mirrors act config built) {look : Lexeme T V}
    {reading : Config T V} (fetched : config.fetch = some (look, reading)) :
    ∃ reading', built.fetch = some (look.leaf, reading') ∧ Mirrors act reading reading' := by
  obtain ⟨stack, lookahead, line, input⟩ := config
  obtain ⟨stack', lookahead', line', input'⟩ := built
  obtain ⟨pairs, held, lines, inputs⟩ := mirrors
  obtain rfl : lookahead' = lookahead.map Lexeme.leaf := held
  obtain rfl : input' = input.map Lexeme.leaf := inputs
  cases lookahead with
  | some token =>
      obtain ⟨rfl, rfl⟩ := Prod.mk.inj (Option.some.inj fetched)
      exact ⟨_, rfl, pairs, rfl, lines, rfl⟩
  | none =>
      cases input with
      | nil => exact absurd fetched (by simp [Config.fetch])
      | cons token rest =>
          obtain ⟨rfl, rfl⟩ := Prod.mk.inj (Option.some.inj fetched)
          exact ⟨_, rfl, pairs, rfl, rfl, rfl⟩

/-- Building steps as evaluating does. -/
theorem Mirrors.step (mirrors : Mirrors act config built)
    (stepped : LR.step g tables act config = .next after) :
    ∃ after', LR.step g tables build built = .next after' ∧ Mirrors act after after' := by
  rw [LR.step] at stepped ⊢
  rw [topState_of_mirrored mirrors.stack]
  split at stepped
  · exact absurd stepped (by simp)
  · split at stepped
    · split at stepped <;> exact absurd stepped (by simp)
    · rename_i open'
      rw [if_neg open']
      split at stepped
      · rename_i settled
        rw [if_pos settled]
        split at stepped
        · exact mirrors.reduce stepped
        · exact absurd stepped (by simp)
      · rename_i unsettled
        rw [if_neg unsettled]
        split at stepped
        · exact absurd stepped (by simp)
        · rename_i look reading fetched
          obtain ⟨reading', fetched', mirrors'⟩ := mirrors.fetch fetched
          rw [fetched']
          split at stepped
          · rename_i state chosen
            obtain rfl := Outcome.next.inj stepped
            simp only [Lexeme.leaf, chosen]
            exact ⟨_, rfl, .cons ⟨rfl, rfl⟩ mirrors'.stack, rfl, mirrors'.line, mirrors'.input⟩
          · rename_i rule chosen
            simp only [Lexeme.leaf, chosen]
            exact mirrors'.reduce stepped
          · exact absurd stepped (by simp)

theorem Mirrors.steps (mirrors : Mirrors act config built)
    (steps : Steps g tables act config after) :
    ∃ after', Steps g tables build built after' ∧ Mirrors act after after' := by
  induction steps with
  | refl => exact ⟨built, .refl, mirrors⟩
  | tail _ stepped ih =>
      obtain ⟨middle, steps', mirrors'⟩ := ih
      obtain ⟨last, stepped', mirrors''⟩ := mirrors'.step stepped
      exact ⟨last, steps'.tail stepped', mirrors''⟩

theorem Mirrors.accept (mirrors : Mirrors act config built) {value : V}
    (accepted : LR.step g tables act config = .accept value) :
    ∃ tree, LR.step g tables build built = .accept tree ∧ tree.eval act = some value := by
  rw [LR.step] at accepted ⊢
  rw [topState_of_mirrored mirrors.stack]
  split at accepted
  · exact absurd accepted (by simp)
  · split at accepted
    · rename_i final
      rw [if_pos final]
      obtain ⟨stack, lookahead, line, input⟩ := config
      obtain ⟨stack', lookahead', line', input'⟩ := built
      have pairs := mirrors.stack
      split at accepted
      · rename_i last state value' others stacked
        obtain rfl := Outcome.accept.inj accepted
        obtain rfl : stack = _ := stacked
        cases pairs with
        | cons _ rest =>
            cases rest with
            | cons own _ => exact ⟨_, rfl, own.2⟩
      · exact absurd accepted (by simp)
    · split at accepted
      · split at accepted
        · exact absurd accepted reduceBy_ne_accept
        · exact absurd accepted (by simp)
      · split at accepted
        · exact absurd accepted (by simp)
        · split at accepted
          · exact absurd accepted (by simp)
          · exact absurd accepted reduceBy_ne_accept
          · exact absurd accepted (by simp)

/-- What the parser accepts has a tree that evaluates to the accepted value. -/
theorem of_accepts {input : List (Lexeme T V)} {value : V}
    (accepted : Accepts g tables act input value) :
    ∃ tree, Accepts g tables build (input.map Lexeme.leaf) tree ∧ tree.eval act = some value := by
  obtain ⟨config, steps, ended⟩ := accepted
  have begins : Mirrors act (start input) (start (input.map Lexeme.leaf)) :=
    ⟨.nil, rfl, rfl, rfl⟩
  obtain ⟨built, steps', mirrors⟩ := begins.steps steps
  obtain ⟨tree, ended', evaluated⟩ := mirrors.accept ended
  exact ⟨tree, ⟨built, steps', ended'⟩, evaluated⟩

variable {filter : Filter}

omit [Coded N] in
/-- A filtered derivation with trees as values derives the tokens of the tree. -/
theorem fits_of_reduces {context : Nat × Nat} {name : N} {word : List (Token T (Tree T V))}
    {next : T} {tree : Tree T V}
    (reduces : Reduces g filter (fun rule children => some (.node rule 0 children)) context name
      word next tree) {lexemes : List (Lexeme T V)}
    (same : word = lexemes.map fun lexeme => ⟨lexeme.kind, .leaf lexeme⟩) :
    Fits g (.nonterm name) tree ∧ tree.word = lexemes := by
  refine Reduces.rec
    (motive_1 := fun _ name word _ tree _ => ∀ lexemes : List (Lexeme T V),
      word = lexemes.map (fun lexeme => ⟨lexeme.kind, .leaf lexeme⟩) →
        Fits g (.nonterm name) tree ∧ tree.word = lexemes)
    (motive_2 := fun _ _ _ symbols word _ trees _ => ∀ lexemes : List (Lexeme T V),
      word = lexemes.map (fun lexeme => ⟨lexeme.kind, .leaf lexeme⟩) →
        List.Forall₂ (Fits g) symbols trees ∧ words trees = lexemes)
    ?_ ?_ ?_ ?_ reduces lexemes same
  · intro _ rule r word _ children tree numbered _ _ evaluated ih lexemes same
    obtain rfl := Option.some.inj evaluated
    obtain ⟨fit, all⟩ := ih lexemes same
    exact ⟨.node numbered fit, all⟩
  · intro _ _ _ _ lexemes same
    obtain rfl := List.map_eq_nil_iff.mp same.symm
    exact ⟨.nil, rfl⟩
  · intro _ _ _ token symbols word _ trees _ ih lexemes same
    obtain ⟨lexeme, others, rfl, rfl, rest⟩ := List.map_eq_cons_iff.mp same.symm
    obtain ⟨fit, all⟩ := ih others rest.symm
    exact ⟨.cons (.leaf lexeme) fit, by rw [words, all]; rfl⟩
  · intro _ _ _ name symbols first second _ tree trees _ _ ihHead ihRest lexemes same
    obtain ⟨left, right, rfl, leads, rest⟩ := List.map_eq_append_iff.mp same.symm
    obtain ⟨head, own⟩ := ihHead left leads.symm
    obtain ⟨fit, all⟩ := ihRest right rest.symm
    exact ⟨.cons head fit, by rw [words, own, all]⟩

/-- The tree of an accepted input is one of the start symbol and has the tokens of the
input. -/
theorem fits_of_accepts (valid : validItems g tables = true)
    (checked : validate g tables filter = true) {name : N} {kind : T}
    (starts : validStart g tables name kind = true) {lexemes : List (Lexeme T V)}
    {eof : Lexeme T V} (apart : ∀ lexeme ∈ lexemes, lexeme.kind ≠ kind) (ends : eof.kind = kind)
    {tree : Tree T V}
    (accepted : Accepts g tables build ((lexemes ++ [eof]).map Lexeme.leaf) tree) :
    Fits g (.nonterm name) tree ∧ tree.word = lexemes := by
  have carries : Carries build (fun rule children => some (.node rule 0 children))
      (erase : Tree T V → Tree T V) := by
    intro rule line children
    rw [build, Option.map_some, erase, eraseAll_eq_map]
  rw [List.map_append] at accepted
  have apart' : ∀ lexeme ∈ lexemes.map Lexeme.leaf, lexeme.kind ≠ kind := by
    intro lexeme member
    obtain ⟨own, listed, rfl⟩ := List.mem_map.mp member
    exact apart own listed
  have ends' : eof.leaf.kind = kind := ends
  have reduces := (accepts_iff_reduces valid checked carries starts apart' ends').mp
    ⟨tree, accepted, rfl⟩
  rw [List.map_map] at reduces
  obtain ⟨fits, same⟩ := fits_of_reduces reduces rfl
  exact ⟨fits_of_erase tree fits, by rw [← word_erase, same]⟩

/-- What has been read is not after the current line, and what comes is not before
it. -/
structure Timely (config : Config T (Tree T V)) : Prop where
  stack : ∀ entry ∈ config.stack, Late entry.2 ∧ ∀ lexeme ∈ entry.2.word, lexeme.line ≤ config.line
  lookahead : ∀ look ∈ config.lookahead, ∃ lexeme : Lexeme T V, look = lexeme.leaf ∧
    lexeme.line ≤ config.line
  input : ∃ lexemes : List (Lexeme T V), config.input = lexemes.map Lexeme.leaf ∧
    lexemes.Pairwise (fun first second => first.line ≤ second.line) ∧
    ∀ lexeme ∈ lexemes, config.line ≤ lexeme.line

variable {config after : Config T (Tree T V)}

omit [Coded T] in
theorem Timely.fetch (timely : Timely config) {look : Lexeme T (Tree T V)}
    {reading : Config T (Tree T V)} (fetched : config.fetch = some (look, reading)) :
    Timely reading ∧ ∃ lexeme : Lexeme T V, look = lexeme.leaf ∧ lexeme.line ≤ reading.line := by
  obtain ⟨stack, lookahead, line, input⟩ := config
  cases lookahead with
  | some token =>
      obtain ⟨rfl, rfl⟩ := Prod.mk.inj (Option.some.inj fetched)
      exact ⟨timely, timely.lookahead _ rfl⟩
  | none =>
      obtain ⟨lexemes, same, sorted, later⟩ := timely.input
      obtain rfl : input = _ := same
      cases lexemes with
      | nil => exact absurd fetched (by simp [Config.fetch])
      | cons lexeme lexemes =>
          obtain ⟨rfl, rfl⟩ := Prod.mk.inj (Option.some.inj fetched)
          have onward : line ≤ lexeme.line := later lexeme List.mem_cons_self
          refine ⟨⟨fun entry member => ?_, fun look same => ?_, lexemes, rfl, ?_⟩, lexeme, rfl,
            Nat.le_refl _⟩
          · obtain ⟨late, before⟩ := timely.stack entry member
            exact ⟨late, fun own listed => Nat.le_trans (before own listed) onward⟩
          · exact ⟨lexeme, (Option.some.inj same).symm, Nat.le_refl _⟩
          · exact ⟨(List.pairwise_cons.mp sorted).2, (List.pairwise_cons.mp sorted).1⟩

omit [Coded T] in
theorem Timely.reduce (timely : Timely config) {rule : Nat}
    (reduced : reduceBy g tables build rule config = .next after) : Timely after := by
  obtain ⟨r, tree, goto, -, built, -, rfl⟩ := reduceBy_next reduced
  obtain rfl := Option.some.inj built
  refine ⟨fun entry member => ?_, timely.lookahead, timely.input⟩
  rcases List.mem_cons.mp member with rfl | member
  · have own : ∀ lexeme ∈ words ((config.stack.take r.rhs.length).reverse.map Prod.snd),
        lexeme.line ≤ config.line := by
      intro lexeme member
      obtain ⟨tree, listed, within⟩ := mem_words.mp member
      obtain ⟨entry, taken, rfl⟩ := List.mem_map.mp listed
      exact (timely.stack entry (List.mem_of_mem_take (List.mem_reverse.mp taken))).2 _ within
    refine ⟨late_node own fun tree member => ?_, own⟩
    obtain ⟨entry, listed, rfl⟩ := List.mem_map.mp member
    exact (timely.stack entry (List.mem_of_mem_take (List.mem_reverse.mp listed))).1
  · exact timely.stack entry (List.mem_of_mem_drop member)

theorem Timely.step (timely : Timely config)
    (stepped : LR.step g tables build config = .next after) : Timely after := by
  rw [LR.step] at stepped
  split at stepped
  · exact absurd stepped (by simp)
  · split at stepped
    · split at stepped <;> exact absurd stepped (by simp)
    · split at stepped
      · split at stepped
        · exact timely.reduce stepped
        · exact absurd stepped (by simp)
      · split at stepped
        · exact absurd stepped (by simp)
        · rename_i look reading fetched
          obtain ⟨timely', lexeme, rfl, before⟩ := timely.fetch fetched
          split at stepped
          · obtain rfl := Outcome.next.inj stepped
            refine ⟨fun entry member => ?_, fun _ absent => (by cases absent), timely'.input⟩
            rcases List.mem_cons.mp member with rfl | member
            · refine ⟨late_leaf lexeme, fun own listed => ?_⟩
              obtain rfl := List.mem_singleton.mp listed
              exact before
            · exact timely'.stack entry member
          · exact timely'.reduce stepped
          · exact absurd stepped (by simp)

theorem Timely.steps (timely : Timely config) (steps : Steps g tables build config after) :
    Timely after := by
  induction steps with
  | refl => exact timely
  | tail _ stepped ih => exact ih.step stepped

/-- The accepted value is on the stack. -/
theorem mem_of_accept {config : Config T V} {value : V}
    (accepted : LR.step g tables act config = .accept value) :
    ∃ entry ∈ config.stack, entry.2 = value := by
  rw [LR.step] at accepted
  split at accepted
  · exact absurd accepted (by simp)
  · split at accepted
    · split at accepted
      · rename_i stacked
        rw [stacked]
        exact ⟨_, List.mem_cons_of_mem _ List.mem_cons_self, Outcome.accept.inj accepted⟩
      · exact absurd accepted (by simp)
    · split at accepted
      · split at accepted
        · exact absurd accepted reduceBy_ne_accept
        · exact absurd accepted (by simp)
      · split at accepted
        · exact absurd accepted (by simp)
        · split at accepted
          · exact absurd accepted (by simp)
          · exact absurd accepted reduceBy_ne_accept
          · exact absurd accepted (by simp)

/-- If the lines of the tokens do not decrease, the tree of an accepted input is late. -/
theorem late_of_accepts {input : List (Lexeme T V)}
    (sorted : input.Pairwise fun first second => first.line ≤ second.line) {tree : Tree T V}
    (accepted : Accepts g tables build (input.map Lexeme.leaf) tree) : Late tree := by
  obtain ⟨config, steps, ended⟩ := accepted
  have begins : Timely (start (input.map Lexeme.leaf)) :=
    ⟨fun _ absent => (nomatch absent), fun _ absent => (nomatch absent), input, rfl, sorted,
      fun _ _ => Nat.zero_le _⟩
  obtain ⟨entry, member, rfl⟩ := mem_of_accept ended
  exact ((begins.steps steps).stack entry member).1

end Runs

end Tree

end LR
