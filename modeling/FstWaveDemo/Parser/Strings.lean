import FstWaveDemo.Parser.Words

/-! # String literals

The class of characters in the string rule also has the backslash, so a backslash may be
read by itself and the quote after it as escaped. What the rule takes as the inside of a
string is a run of a small automaton (`FstWaveDemo.matches_string`). A literal is read
exactly up to its closing quote, unless its last character before it is a backslash and
the text goes on to another quote (`FstWaveDemo.Lexical.step_literal_iff`).
-/

namespace FstWaveDemo

open Flex (CharSet Pattern)

/-- The printable ASCII characters. -/
def printable (c : Char) : Bool := decide (' ' ≤ c ∧ c ≤ '~')

/-- A part of a string literal. -/
inductive StringItem
  /-- A character that stands for itself. -/
  | plain (c : Char) (own : printable c = true ∧ c ≠ '"' ∧ c ≠ '\\')
  /-- A backslash with the character after it. -/
  | escape (c : Char) (own : printable c = true)

def StringItem.text : StringItem → Text
  | plain c _ => [c]
  | escape c _ => ['\\', c]

/-- What stands between the quotes. -/
def literalBody (items : List StringItem) : Text := items.flatMap StringItem.text

/-- A string literal. -/
def literal (items : List StringItem) : Text := '"' :: (literalBody items ++ ['"'])

/-- The scanner may take the text as the inside of a string: characters of the class, and
quotes each after a backslash. -/
def readable : (escaped : Bool) → Text → Bool
  | _, [] => true
  | escaped, c :: rest =>
      if c = '"' then escaped && readable false rest
      else CharSet.mem Rules.string_char c && readable (decide (c = '\\')) rest

/-- Whether a quote that comes next may be escaped. -/
def escapedAfter (escaped : Bool) (text : Text) : Bool :=
  text.foldl (fun _ c => decide (c = '\\')) escaped

theorem readable_append (escaped : Bool) (u v : Text) :
    readable escaped (u ++ v) = (readable escaped u && readable (escapedAfter escaped u) v) := by
  induction u generalizing escaped with
  | nil => rfl
  | cons c u ih =>
      rw [List.cons_append, readable, readable]
      by_cases quote : c = '"'
      · rw [if_pos quote, if_pos quote, ih, Bool.and_assoc, quote]
        rfl
      · rw [if_neg quote, if_neg quote, ih, Bool.and_assoc]
        rfl

theorem readable_mono {text : Text} (own : readable false text = true) (escaped : Bool) :
    readable escaped text = true := by
  cases text with
  | nil => rfl
  | cons c text =>
      rw [readable] at own ⊢
      by_cases quote : c = '"'
      · rw [if_pos quote] at own
        exact nomatch own
      · rwa [if_neg quote] at own ⊢

/-- Only a quote has to be escaped. -/
theorem readable_unescaped {text : Text} (own : readable true text = true)
    (solid : text.head? ≠ some '"') : readable false text = true := by
  cases text with
  | nil => rfl
  | cons c text =>
      have other : c ≠ '"' := fun quote => solid (congrArg some quote)
      rw [readable, if_neg other] at own ⊢
      exact own

theorem escapedAfter_eq (text : Text) :
    escapedAfter false text = true ↔ text.getLast? = some '\\' := by
  rcases List.eq_nil_or_concat text with rfl | ⟨init, last, rfl⟩
  · exact ⟨fun impossible => (nomatch impossible), fun impossible => (nomatch impossible)⟩
  · rw [List.concat_eq_append, escapedAfter, List.foldl_append, List.getLast?_concat]
    simp

/-- The inside of a string, as a pattern. -/
def stringBody : Pattern := .star (.alt (Pattern.lit "\\\"") (.chars Rules.string_char))

/-- The pattern matches what is readable. -/
theorem matches_stringBody {text : Text} :
    stringBody.Matches text ↔ readable false text = true := by
  constructor
  · intro matched
    generalize same : stringBody = p at matched
    induction matched with
    | done => rfl
    | @more body u v head rest _ ih =>
        obtain rfl := Pattern.star.inj same
        have later := ih rfl
        rcases Pattern.matches_alt.mp head with pair | single
        · obtain rfl := Pattern.matches_lit.mp pair
          exact later
        · obtain ⟨c, rfl, member⟩ := Pattern.matches_chars.mp single
          have solid : c ≠ '"' := by
            rintro rfl
            exact absurd member (by decide)
          rw [List.singleton_append, readable, if_neg solid, member, Bool.true_and]
          exact readable_mono later _
    | _ => exact nomatch same
  · intro own
    generalize long : text.length = n
    induction n using Nat.strong_induction_on generalizing text with
    | _ n ih =>
        cases text with
        | nil => exact .done
        | cons c text =>
            have solid : c ≠ '"' := by
              rintro rfl
              exact nomatch own
            rw [readable, if_neg solid, Bool.and_eq_true] at own
            obtain ⟨member, later⟩ := own
            by_cases pair : c = '\\' ∧ text.head? = some '"'
            · obtain ⟨rfl, head⟩ := pair
              obtain ⟨text', rfl⟩ := List.head?_eq_some_iff.mp head
              rw [decide_eq_true rfl, readable, if_pos rfl, Bool.true_and] at later
              exact .more (u := ['\\', '"']) (.left (Pattern.matches_lit.mpr rfl))
                (ih text'.length (by rw [← long, List.length_cons, List.length_cons]; omega)
                  later rfl)
            · refine .more (u := [c]) (.right (.chars member))
                (ih text.length (by simp [← long]) ?_ rfl)
              by_cases backslash : c = '\\'
              · rw [decide_eq_true backslash] at later
                exact readable_unescaped later fun head => pair ⟨backslash, head⟩
              · rwa [decide_eq_false backslash] at later

/-- The words of the string rule. -/
theorem matches_string {w : Text} : Rules.string.Matches w ↔
    ∃ body, w = '"' :: (body ++ ['"']) ∧ readable false body = true := by
  constructor
  · intro matched
    obtain ⟨u, v, rfl, opening, matched⟩ := Pattern.matches_cat.mp matched
    obtain ⟨body, v, rfl, inside, closing⟩ := Pattern.matches_cat.mp matched
    obtain rfl := Pattern.matches_lit.mp opening
    obtain rfl := Pattern.matches_lit.mp closing
    exact ⟨body, rfl, matches_stringBody.mp inside⟩
  · rintro ⟨body, rfl, own⟩
    exact .cat (u := ['"']) (Pattern.matches_lit.mpr rfl)
      (.cat (matches_stringBody.mpr own) (Pattern.matches_lit.mpr rfl))

/-- Every printable character but the quote is in the class of the rule. -/
theorem mem_string_char {c : Char} (own : printable c = true) (solid : c ≠ '"') :
    CharSet.mem Rules.string_char c = true := by
  have all : ((List.range 127).all fun n => !printable (Char.ofNat n) ||
      decide (Char.ofNat n = '"') || CharSet.mem Rules.string_char (Char.ofNat n)) = true := by
    decide +kernel
  have high : c.toNat ≤ 126 := (of_decide_eq_true own).2
  have each := List.all_eq_true.mp all c.toNat (List.mem_range.mpr (by omega))
  rw [Char.ofNat_toNat, own, decide_eq_false solid] at each
  exact each

/-- The inside of a literal is readable. -/
theorem readable_literalBody (items : List StringItem) :
    readable false (literalBody items) = true := by
  induction items with
  | nil => rfl
  | cons item items ih =>
      cases item with
      | plain c own =>
          change readable false (c :: literalBody items) = true
          rw [readable, if_neg own.2.1, mem_string_char own.1 own.2.1, Bool.true_and,
            decide_eq_false own.2.2]
          exact ih
      | escape c own =>
          change readable false ('\\' :: c :: literalBody items) = true
          rw [readable, if_neg (by decide), mem_string_char (by decide) (by decide), Bool.true_and,
            readable]
          by_cases quote : c = '"'
          · rw [if_pos quote]
            exact ih
          · rw [if_neg quote, mem_string_char own quote, Bool.true_and]
            exact readable_mono ih _

theorem readable_of_class {text : Text}
    (inside : ∀ c ∈ text, CharSet.mem Rules.string_char c = true) (escaped : Bool) :
    readable escaped text = true := by
  induction text generalizing escaped with
  | nil => rfl
  | cons c text ih =>
      have own := inside c List.mem_cons_self
      have solid : c ≠ '"' := by
        rintro rfl
        exact absurd own (by decide)
      rw [readable, if_neg solid, own, Bool.true_and]
      exact ih (fun d member => inside d (List.mem_cons_of_mem _ member)) _

theorem dropWhile_of_readable {more tail : Text} {escaped : Bool}
    (own : readable escaped more = true) :
    ((more ++ '"' :: tail).dropWhile (CharSet.mem Rules.string_char)).head? = some '"' := by
  induction more generalizing escaped with
  | nil => rfl
  | cons c more ih =>
      by_cases quote : c = '"'
      · rw [quote]
        rfl
      · rw [readable, if_neg quote, Bool.and_eq_true] at own
        rw [List.cons_append, List.dropWhile_cons_of_pos own.1]
        exact ih own.2

/-- The characters up to the first one that is not in the class are readable, and a quote
that ends something readable comes right after them. -/
theorem readable_quote_iff (rest : Text) :
    (∃ more tail, rest = more ++ '"' :: tail ∧ readable false more = true) ↔
      (rest.dropWhile (CharSet.mem Rules.string_char)).head? = some '"' := by
  constructor
  · rintro ⟨more, tail, rfl, own⟩
    exact dropWhile_of_readable own
  · intro head
    obtain ⟨tail, dropped⟩ := List.head?_eq_some_iff.mp head
    refine ⟨rest.takeWhile (CharSet.mem Rules.string_char), tail, ?_, ?_⟩
    · rw [← dropped, List.takeWhile_append_dropWhile]
    · exact readable_of_class (List.all_eq_true.mp List.all_takeWhile) false

/-- The literal is the longest match of the string rule, unless its closing quote can be
read as escaped and another quote is reached. -/
theorem literal_stops_iff (items : List StringItem) (rest : Text) :
    Rules.string.Stops (literal items) rest ↔
      ¬ ((literalBody items).getLast? = some '\\' ∧
        (rest.dropWhile (CharSet.mem Rules.string_char)).head? = some '"') := by
  have inside (more : Text) : readable false (literalBody items ++ '"' :: more) =
      (escapedAfter false (literalBody items) && readable false more) := by
    rw [readable_append, readable_literalBody, Bool.true_and, readable, if_pos rfl]
  rw [← escapedAfter_eq, ← readable_quote_iff]
  constructor
  · rintro stops ⟨escaped, more, tail, rfl, own⟩
    refine stops (more ++ ['"']) tail (by simp) (by simp) (matches_string.mpr ?_)
    refine ⟨literalBody items ++ '"' :: more, by simp [literal], ?_⟩
    rw [inside, escaped, own]
    rfl
  · intro apart more tail split some matched
    obtain ⟨body, same, own⟩ := matches_string.mp matched
    obtain ⟨more', last, rfl⟩ := (List.eq_nil_or_concat more).resolve_left some
    have same : literalBody items ++ '"' :: more' ++ [last] = body ++ ['"'] := by
      simpa [literal] using same
    obtain ⟨rfl, ends⟩ := List.append_inj' same rfl
    obtain rfl := List.singleton_inj.mp ends
    rw [inside, Bool.and_eq_true] at own
    exact apart ⟨own.1, more', tail, by simpa using split, own.2⟩

namespace Lexical

variable {s : Lexical} {text : Text}

/-- Where the string rule matches, it is selected. -/
theorem select_string {n : Nat} (found : Pattern.longest text Rules.string = some n) :
    Flex.select Rules.normalRules text = some (n, .text .String) := by
  have checked : (Rules.normalRules.all fun r =>
      decide (r.pattern = Rules.string → r.action = .text .String) &&
        (decide (r.pattern = Rules.string) || !r.pattern.starts [('"', '"')] ||
          r.pattern.single)) = true := by
    decide +kernel
  have listed : Rules.rule Rules.string (.text .String) ∈ Rules.normalRules := by
    simp [Rules.normalRules, Rules.statementRules]
  obtain ⟨w, rest, rfl, rfl, matched, -⟩ := Pattern.longest_eq_some found
  obtain ⟨body, rfl, -⟩ := matches_string.mp matched
  cases selected : Flex.select Rules.normalRules ('"' :: (body ++ ['"']) ++ rest) with
  | none => exact nomatch (Flex.absent_of_select selected _ listed).symm.trans found
  | some taken =>
      obtain ⟨m, action⟩ := taken
      have longer := Flex.select_max selected listed found
      obtain ⟨r, member, rfl, longest⟩ := Flex.select_mem selected
      have own := List.all_eq_true.mp checked r member
      rw [Bool.and_eq_true, Bool.or_eq_true, Bool.or_eq_true, decide_eq_true_eq,
        decide_eq_true_eq] at own
      rcases own.2 with (string | starts) | single
      · rw [string] at longest
        rw [own.1 string, Option.some.inj (longest.symm.trans found)]
      all_goals
        obtain ⟨w, v, split, rfl, matched', -⟩ := Pattern.longest_eq_some longest
        rw [List.length_cons, List.length_append, List.length_singleton] at longer
      · obtain ⟨c, w, rfl⟩ := List.exists_cons_of_length_pos (l := w) (by omega)
        obtain ⟨rfl, -⟩ := List.cons.inj split
        rw [Bool.not_eq_true'] at starts
        exact absurd (Pattern.not_mem_of_starts starts matched') (by decide)
      · have one := Pattern.length_of_single single matched'
        omega

example : Flex.select Rules.normalRules ['"', 'a', '"', ','] = some (3, .text .String) := by
  decide +kernel

/-- A literal is read as one string, exactly if it does not end with a backslash before its
closing quote or no other quote is reached. -/
theorem step_literal_iff (s : Lexical) (normal : s.mode = .normal) (items : List StringItem)
    (rest : Text) :
    s.step (literal items ++ rest) =
        .token ⟨⟨.token .String, .str (some (literal items))⟩, s.lineno⟩ s rest ↔
      ¬ ((literalBody items).getLast? = some '\\' ∧
        (rest.dropWhile (CharSet.mem Rules.string_char)).head? = some '"') := by
  rw [← literal_stops_iff]
  have matched : Rules.string.Matches (literal items) :=
    matches_string.mpr ⟨_, rfl, readable_literalBody items⟩
  have flat {w : Text} (word : Rules.string.Matches w) : '\n' ∉ w :=
    Pattern.not_mem_of_avoids_single (by decide +kernel) word
  constructor
  · intro stepped more tail split some longer
    obtain ⟨n, found, long⟩ := Flex.le_longest (v := tail) longer
    rw [List.append_assoc, ← split] at found
    have selected := select_string found
    have taken := stepped.symm.trans (step_selected (by rw [normal]; exact selected))
    obtain ⟨-, -, left⟩ := Step.token.inj taken
    have lengths := congrArg List.length left
    have within := Flex.select_le selected
    have more_pos := List.length_pos_iff.mpr some
    rw [List.length_drop] at lengths
    rw [List.length_append] at long
    change rest.length = (literal items ++ rest).length - n at lengths
    change n ≤ (literal items ++ rest).length at within
    rw [List.length_append] at lengths within
    omega
  · intro stops
    have selected := select_string (Pattern.longest_append matched stops)
    exact step_word (by rw [normal]; exact selected) (List.cons_ne_nil _ _) (flat matched)

/-- A literal of one letter, before the rest of a statement. -/
theorem step_literal_letter :
    Lexical.step { new 1 with mode := .normal }
        (literal [.plain 'a' (by decide)] ++ ", x)".toList) =
        .token ⟨⟨.token .String, .str (some (literal [.plain 'a' (by decide)]))⟩, 1⟩
          { new 1 with mode := .normal } ", x)".toList ↔
      ¬ ((literalBody [.plain 'a' (by decide)]).getLast? = some '\\' ∧
        (", x)".toList.dropWhile (CharSet.mem Rules.string_char)).head? = some '"') :=
  step_literal_iff { new 1 with mode := .normal } rfl [.plain 'a' (by decide)] ", x)".toList

/-- A string of one escaped backslash, with another string on its line: the scanner reads on
to the opening quote of the second one. -/
theorem backslash_reads_on : ¬ ∀ s : Lexical, s.mode = .normal →
    s.step (literal [.escape '\\' rfl] ++ ", \"b\")".toList) =
      .token ⟨⟨.token .String, .str (some (literal [.escape '\\' rfl]))⟩, s.lineno⟩ s
        ", \"b\")".toList := by
  intro reads
  have left : (advance 1 { new 1 with mode := .normal }
      (literal [.escape '\\' rfl] ++ ", \"b\")".toList)).any (fun result =>
        decide (result.2.2 = ", \"b\")".toList)) = false := by
    decide +kernel
  rw [advance, reads _ rfl] at left
  exact absurd left (by decide)

end Lexical

end FstWaveDemo
