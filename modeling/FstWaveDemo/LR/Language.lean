import FstWaveDemo.LR.Complete

/-! # Properties of derived words

What holds of all words that a nonterminal derives. If a property of words is closed under
the rules of the grammar (`LR.Closed`), every derived word has it (`LR.Closed.of_reduces`);
`LR.Shares` says how a word is shared out among the symbols of a right side.
-/

namespace LR

variable {T N W : Type}

section Sharing

/-- The symbols of a right side share a word out, with the property `L` of the part of every
nonterminal and the token after that part. -/
inductive Shares (L : N → List (Token T W) → T → Prop) :
    List (Symbol T N) → List (Token T W) → T → Prop
  | nil {next : T} : Shares L [] [] next
  | term {token : Token T W} {symbols : List (Symbol T N)} {word : List (Token T W)} {next : T}
      (rest : Shares L symbols word next) :
      Shares L (.term token.kind :: symbols) (token :: word) next
  | nonterm {name : N} {symbols : List (Symbol T N)} {first second : List (Token T W)} {next : T}
      (head : L name first (peek second next)) (rest : Shares L symbols second next) :
      Shares L (.nonterm name :: symbols) (first ++ second) next

variable {L : N → List (Token T W) → T → Prop} {symbols : List (Symbol T N)}
  {word : List (Token T W)} {next : T}

@[simp] theorem shares_nil : Shares L ([] : List (Symbol T N)) word next ↔ word = [] := by
  constructor
  · intro shared
    cases shared
    rfl
  · rintro rfl
    exact .nil

@[simp] theorem shares_term {kind : T} : Shares L (.term kind :: symbols) word next ↔
    ∃ token rest, word = token :: rest ∧ token.kind = kind ∧ Shares L symbols rest next := by
  constructor
  · intro shared
    cases shared with
    | term rest => exact ⟨_, _, rfl, rfl, rest⟩
  · rintro ⟨token, rest, rfl, rfl, shared⟩
    exact .term shared

@[simp] theorem shares_nonterm {name : N} : Shares L (.nonterm name :: symbols) word next ↔
    ∃ first second, word = first ++ second ∧ L name first (peek second next) ∧
      Shares L symbols second next := by
  constructor
  · intro shared
    cases shared with
    | nonterm head rest => exact ⟨_, _, rfl, head, rest⟩
  · rintro ⟨first, second, rfl, head, rest⟩
    exact .nonterm head rest

/-- A nonterminal alone on the right side has the whole word. -/
theorem shares_single {name : N} : Shares L [.nonterm name] word next ↔ L name word next := by
  rw [shares_nonterm]
  constructor
  · rintro ⟨first, second, rfl, head, rest⟩
    obtain rfl := shares_nil.mp rest
    rwa [List.append_nil]
  · intro held
    exact ⟨word, [], (List.append_nil word).symm, held, .nil⟩

/-- Every token of a shared word is one of the terminals or in the part of a nonterminal. -/
theorem Shares.mem {token : Token T W} (shared : Shares L symbols word next)
    (member : token ∈ word) : .term token.kind ∈ symbols ∨
      ∃ name part after, .nonterm name ∈ symbols ∧ L name part after ∧ token ∈ part := by
  induction shared with
  | nil => exact nomatch member
  | term _ ih =>
      rcases List.mem_cons.mp member with rfl | member
      · exact Or.inl List.mem_cons_self
      · rcases ih member with own | ⟨name, part, after, listed, held, inside⟩
        · exact Or.inl (List.mem_cons_of_mem _ own)
        · exact Or.inr ⟨name, part, after, List.mem_cons_of_mem _ listed, held, inside⟩
  | nonterm head _ ih =>
      rcases List.mem_append.mp member with inside | member
      · exact Or.inr ⟨_, _, _, List.mem_cons_self, head, inside⟩
      · rcases ih member with own | ⟨name, part, after, listed, held, inside⟩
        · exact Or.inl (List.mem_cons_of_mem _ own)
        · exact Or.inr ⟨name, part, after, List.mem_cons_of_mem _ listed, held, inside⟩

theorem Shares.imp {M : N → List (Token T W) → T → Prop}
    (weaker : ∀ name word next, L name word next → M name word next)
    (shared : Shares L symbols word next) : Shares M symbols word next := by
  induction shared with
  | nil => exact .nil
  | term _ ih => exact .term ih
  | nonterm head _ ih => exact .nonterm (weaker _ _ _ head) ih

end Sharing

variable [Coded T] {g : Grammar T N} {filter : Filter} {sem : Actions W}

/-- A property of words that the rules keep, where the filter lets them. -/
def Closed (g : Grammar T N) (filter : Filter) (L : N → List (Token T W) → T → Prop) : Prop :=
  ∀ (context : Nat × Nat) (rule : Nat) (r : Rule T N) (word : List (Token T W)) (next : T),
    g.rules[rule]? = some r → has (filter context rule) (code next) = false →
    Shares L r.rhs word next → L r.lhs word next

/-- **Derived words.** A property that the rules keep holds of every derived word. -/
theorem Closed.of_reduces {L : N → List (Token T W) → T → Prop} (closed : Closed g filter L)
    {context : Nat × Nat} {name : N} {word : List (Token T W)} {next : T} {value : W}
    (reduced : Reduces g filter sem context name word next value) : L name word next := by
  refine Reduces.rec (motive_1 := fun _ name word next _ _ => L name word next)
    (motive_2 := fun _ _ _ symbols word next _ _ => Shares L symbols word next) ?_ ?_ ?_ ?_ reduced
  · intro context rule r word next values value numbered _ kept _ shared
    exact closed context rule r word next numbered kept shared
  · intro rule dot context next
    exact .nil
  · intro rule dot context token symbols word next values _ shared
    exact .term shared
  · intro rule dot context name symbols first second next value values _ _ head shared
    exact .nonterm head shared

omit [Coded T] in
/-- A rule is one of those of its nonterminal. -/
theorem rule_mem [Coded N] {rule : Nat} {r : Rule T N} (numbered : g.rules[rule]? = some r) :
    (rule, r) ∈ rulesOf (code r.lhs) 0 g.rules := by
  have listed := mem_rulesOf numbered 0
  rwa [Nat.zero_add] at listed

end LR
