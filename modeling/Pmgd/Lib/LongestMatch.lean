import Mathlib.Computability.Language

/-!
# Scanning by the longest match

Regular expressions over classes of characters, and scanners with one rule for each kind of
token.  A scanner takes the rule that matches most of the text, and among these the first one.
-/

namespace Pmgd.LongestMatch

open Computability

/-- A regular expression. -/
inductive Pattern (α : Type)
  | nothing
  | empty
  | one (kind : α → Bool)
  | either (left right : Pattern α)
  | both (first second : Pattern α)
  | star (inner : Pattern α)

namespace Pattern

variable {α : Type} {p q : Pattern α} {kind : α → Bool} {c : α} {word rest more text : List α}
  {n : Nat}

def language : Pattern α → Language α
  | nothing => 0
  | empty => 1
  | one kind => ({word | ∃ c, kind c = true ∧ word = [c]} : Set (List α))
  | either left right => left.language + right.language
  | both first second => first.language * second.language
  | star inner => inner.language∗

def literal [DecidableEq α] : List α → Pattern α
  | [] => empty
  | c :: word => both (one (· = c)) (literal word)

def plus (p : Pattern α) : Pattern α :=
  both p (star p)

def optional (p : Pattern α) : Pattern α :=
  either p empty

theorem mem_one : word ∈ (one kind).language ↔ ∃ c, kind c = true ∧ word = [c] :=
  Iff.rfl

theorem mem_either : word ∈ (either p q).language ↔ word ∈ p.language ∨ word ∈ q.language :=
  Language.mem_add _ _ _

theorem mem_both :
    word ∈ (both p q).language ↔ ∃ u ∈ p.language, ∃ v ∈ q.language, u ++ v = word :=
  Language.mem_mul

theorem mem_literal [DecidableEq α] : word ∈ (literal text).language ↔ word = text := by
  induction text generalizing word with
  | nil => exact Language.mem_one word
  | cons c text induction =>
      rw [literal, mem_both]
      constructor
      · rintro ⟨_, ⟨other, isFirst, rfl⟩, rest, inRest, rfl⟩
        rw [of_decide_eq_true isFirst, induction.mp inRest]
        rfl
      · rintro rfl
        exact ⟨[c], ⟨c, decide_eq_true rfl, rfl⟩, text, induction.mpr rfl, rfl⟩

theorem mem_star_one : word ∈ (star (one kind)).language ↔ ∀ c ∈ word, kind c = true := by
  constructor
  · rintro ⟨words, rfl, all⟩ c member
    obtain ⟨part, isPart, inPart⟩ := List.mem_flatten.mp member
    obtain ⟨_, ofKind, rfl⟩ := all part isPart
    rwa [List.mem_singleton.mp inPart]
  · intro all
    refine ⟨word.map fun c => [c], (List.flatMap_singleton' word).symm, ?_⟩
    intro part isPart
    obtain ⟨c, member, rfl⟩ := List.mem_map.mp isPart
    exact ⟨c, all c member, rfl⟩

theorem mem_plus_one :
    word ∈ (plus (one kind)).language ↔ word ≠ [] ∧ ∀ c ∈ word, kind c = true := by
  rw [plus, mem_both]
  constructor
  · rintro ⟨_, ⟨c, ofKind, rfl⟩, rest, all, rfl⟩
    exact ⟨List.cons_ne_nil c rest, List.forall_mem_cons.mpr ⟨ofKind, mem_star_one.mp all⟩⟩
  · rintro ⟨notEmpty, all⟩
    cases word with
    | nil => exact absurd rfl notEmpty
    | cons c rest =>
        rw [List.forall_mem_cons] at all
        exact ⟨[c], ⟨c, all.1, rfl⟩, rest, mem_star_one.mpr all.2, rfl⟩

/-- All characters of a pattern are of one kind. -/
def OnlyOf (kind : α → Bool) : Pattern α → Prop
  | nothing => True
  | empty => True
  | one inner => ∀ c, inner c = true → kind c = true
  | either left right => left.OnlyOf kind ∧ right.OnlyOf kind
  | both first second => first.OnlyOf kind ∧ second.OnlyOf kind
  | star inner => inner.OnlyOf kind

theorem OnlyOf.forall_mem (only : p.OnlyOf kind) (member : word ∈ p.language) :
    ∀ c ∈ word, kind c = true := by
  induction p generalizing word with
  | nothing => exact absurd member (Language.notMem_zero word)
  | empty =>
      rw [(Language.mem_one word).mp member]
      exact List.forall_mem_nil _
  | one inner =>
      obtain ⟨c, ofKind, rfl⟩ := member
      exact List.forall_mem_singleton.mpr (only c ofKind)
  | either left right inLeft inRight =>
      rcases mem_either.mp member with ofLeft | ofRight
      · exact inLeft only.1 ofLeft
      · exact inRight only.2 ofRight
  | both first second inFirst inSecond =>
      obtain ⟨u, ofFirst, v, ofSecond, rfl⟩ := mem_both.mp member
      exact List.forall_mem_append.mpr ⟨inFirst only.1 ofFirst, inSecond only.2 ofSecond⟩
  | star inner inInner =>
      obtain ⟨words, rfl, all⟩ := member
      intro c inWords
      obtain ⟨part, isPart, inPart⟩ := List.mem_flatten.mp inWords
      exact inInner only (all part isPart) c inPart

/-! ## The longest match -/

def nullable : Pattern α → Bool
  | nothing => false
  | empty => true
  | one _ => false
  | either left right => left.nullable || right.nullable
  | both first second => first.nullable && second.nullable
  | star _ => true

/-- What has to follow a character. -/
def derivative (c : α) : Pattern α → Pattern α
  | nothing => nothing
  | empty => nothing
  | one kind => if kind c then empty else nothing
  | either left right => either (left.derivative c) (right.derivative c)
  | both first second =>
      if first.nullable then either (both (first.derivative c) second) (second.derivative c)
      else both (first.derivative c) second
  | star inner => both (inner.derivative c) (star inner)

/-- The length of the longest start of a text that a pattern matches. -/
def longest (p : Pattern α) : List α → Option Nat
  | [] => if p.nullable then some 0 else none
  | c :: rest =>
      match (p.derivative c).longest rest with
      | some n => some (n + 1)
      | none => if p.nullable then some 0 else none

theorem nullable_iff : p.nullable = true ↔ [] ∈ p.language := by
  induction p with
  | nothing => exact iff_of_false Bool.false_ne_true (Language.notMem_zero [])
  | empty => exact iff_of_true rfl Language.nil_mem_one
  | one kind =>
      refine iff_of_false Bool.false_ne_true ?_
      rintro ⟨_, _, isNil⟩
      cases isNil
  | either left right inLeft inRight =>
      rw [nullable, Bool.or_eq_true, inLeft, inRight, mem_either]
  | both first second inFirst inSecond =>
      rw [nullable, Bool.and_eq_true, inFirst, inSecond, mem_both]
      constructor
      · rintro ⟨ofFirst, ofSecond⟩
        exact ⟨[], ofFirst, [], ofSecond, rfl⟩
      · rintro ⟨u, ofFirst, v, ofSecond, isNil⟩
        obtain ⟨rfl, rfl⟩ := List.append_eq_nil_iff.mp isNil
        exact ⟨ofFirst, ofSecond⟩
  | star inner _ => exact iff_of_true rfl (Language.nil_mem_kstar _)

theorem cons_mem_both : c :: word ∈ (both p q).language ↔
    (∃ u v, c :: u ∈ p.language ∧ v ∈ q.language ∧ u ++ v = word) ∨
      [] ∈ p.language ∧ c :: word ∈ q.language := by
  rw [mem_both]
  constructor
  · rintro ⟨u, ofFirst, v, ofSecond, isWord⟩
    cases u with
    | nil =>
        rw [← isWord]
        exact .inr ⟨ofFirst, ofSecond⟩
    | cons head u =>
        obtain ⟨rfl, rfl⟩ := List.cons.inj isWord
        exact .inl ⟨u, v, ofFirst, ofSecond, rfl⟩
  · rintro (⟨u, v, ofFirst, ofSecond, rfl⟩ | ⟨ofFirst, ofSecond⟩)
    · exact ⟨c :: u, ofFirst, v, ofSecond, rfl⟩
    · exact ⟨[], ofFirst, c :: word, ofSecond, rfl⟩

theorem cons_mem_star : c :: word ∈ (star p).language ↔
    ∃ u v, c :: u ∈ p.language ∧ v ∈ (star p).language ∧ u ++ v = word := by
  constructor
  · intro member
    obtain ⟨words, isWord, all⟩ := Language.mem_kstar_iff_exists_nonempty.mp member
    cases words with
    | nil => cases isWord
    | cons first words =>
        rw [List.forall_mem_cons] at all
        cases first with
        | nil => exact absurd rfl all.1.2
        | cons head u =>
            obtain ⟨rfl, rfl⟩ := List.cons.inj isWord
            exact ⟨u, words.flatten, all.1.1,
              ⟨words, rfl, fun part isPart => (all.2 part isPart).1⟩, rfl⟩
  · rintro ⟨u, v, ofInner, ⟨words, rfl, all⟩, rfl⟩
    exact ⟨(c :: u) :: words, rfl, List.forall_mem_cons.mpr ⟨ofInner, all⟩⟩

theorem mem_derivative : word ∈ (p.derivative c).language ↔ c :: word ∈ p.language := by
  induction p generalizing word with
  | nothing => exact iff_of_false (Language.notMem_zero _) (Language.notMem_zero _)
  | empty =>
      refine iff_of_false (Language.notMem_zero _) ?_
      rw [language, Language.mem_one]
      exact List.cons_ne_nil c word
  | one kind =>
      rw [derivative, mem_one]
      split_ifs with ofKind
      · rw [language, Language.mem_one]
        constructor
        · rintro rfl
          exact ⟨c, ofKind, rfl⟩
        · rintro ⟨_, _, isWord⟩
          exact (List.cons.inj isWord).2
      · refine iff_of_false (Language.notMem_zero _) ?_
        rintro ⟨_, other, isWord⟩
        rw [(List.cons.inj isWord).1] at ofKind
        exact ofKind other
  | either left right inLeft inRight =>
      rw [derivative, mem_either, mem_either, inLeft, inRight]
  | both first second inFirst inSecond =>
      have behind : word ∈ (both (first.derivative c) second).language ↔
          ∃ u v, c :: u ∈ first.language ∧ v ∈ second.language ∧ u ++ v = word := by
        rw [mem_both]
        constructor
        · rintro ⟨u, ofFirst, v, ofSecond, isWord⟩
          exact ⟨u, v, inFirst.mp ofFirst, ofSecond, isWord⟩
        · rintro ⟨u, v, ofFirst, ofSecond, isWord⟩
          exact ⟨u, inFirst.mpr ofFirst, v, ofSecond, isWord⟩
      rw [derivative, cons_mem_both, ← nullable_iff]
      split_ifs with isNullable
      · rw [mem_either, behind, inSecond]
        simp only [isNullable, true_and]
      · rw [behind]
        simp only [isNullable, Bool.false_eq_true, false_and, or_false]
  | star inner inInner =>
      rw [derivative, cons_mem_star, mem_both]
      constructor
      · rintro ⟨u, ofInner, v, ofStar, isWord⟩
        exact ⟨u, v, inInner.mp ofInner, ofStar, isWord⟩
      · rintro ⟨u, v, ofInner, ofStar, isWord⟩
        exact ⟨u, inInner.mpr ofInner, v, ofStar, isWord⟩

theorem append_mem_star {u v : List α} (ofInner : u ∈ p.language) (ofStar : v ∈ (star p).language) :
    u ++ v ∈ (star p).language := by
  obtain ⟨words, rfl, all⟩ := ofStar
  exact ⟨u :: words, rfl, List.forall_mem_cons.mpr ⟨ofInner, all⟩⟩

/-- A pattern matches at least every start of a text that is in its language. -/
theorem exists_longest (member : word ∈ p.language) :
    ∃ n, word.length ≤ n ∧ p.longest (word ++ rest) = some n := by
  induction word generalizing p with
  | nil =>
      have isNullable := nullable_iff.mpr member
      cases rest with
      | nil => exact ⟨0, Nat.le_refl 0, if_pos isNullable⟩
      | cons c rest =>
          cases behind : (p.derivative c).longest rest with
          | none =>
              refine ⟨0, Nat.le_refl 0, ?_⟩
              rw [List.nil_append, longest, behind]
              exact if_pos isNullable
          | some n =>
              refine ⟨n + 1, Nat.zero_le _, ?_⟩
              rw [List.nil_append, longest, behind]
  | cons c word induction =>
      obtain ⟨n, atLeast, found⟩ := induction (mem_derivative.mpr member)
      refine ⟨n + 1, Nat.succ_le_succ atLeast, ?_⟩
      rw [List.cons_append, longest, found]

theorem nil_of_nullable (found : (if p.nullable then some 0 else none) = some n) :
    n ≤ text.length ∧ text.take n ∈ p.language := by
  split_ifs at found with isNullable
  obtain rfl := Option.some.inj found
  exact ⟨Nat.zero_le _, nullable_iff.mp isNullable⟩

/-- What a pattern matches is in its language. -/
theorem mem_of_longest (found : p.longest text = some n) :
    n ≤ text.length ∧ text.take n ∈ p.language := by
  induction text generalizing p n with
  | nil => exact nil_of_nullable found
  | cons c rest induction =>
      rw [longest] at found
      cases behind : (p.derivative c).longest rest with
      | none =>
          rw [behind] at found
          exact nil_of_nullable found
      | some m =>
          rw [behind] at found
          obtain rfl := Option.some.inj found
          obtain ⟨inside, member⟩ := induction behind
          exact ⟨Nat.succ_le_succ inside, mem_derivative.mp member⟩

/-- What a match has behind a start of the text. -/
theorem longest_append (found : p.longest (word ++ rest) = some n) (atLeast : word.length ≤ n)
    (noLonger : ∀ more, more ≠ [] → more <+: rest → word ++ more ∉ p.language) :
    n = word.length := by
  obtain ⟨k, rfl⟩ := Nat.exists_eq_add_of_le atLeast
  obtain ⟨inside, member⟩ := mem_of_longest found
  rw [List.length_append, Nat.add_le_add_iff_left] at inside
  rw [List.take_length_add_append] at member
  by_cases isZero : k = 0
  · rw [isZero, Nat.add_zero]
  · refine absurd member (noLonger _ ?_ (List.take_prefix k rest))
    intro isNil
    rcases List.take_eq_nil_iff.mp isNil with noMore | noRest
    · exact isZero noMore
    · rw [noRest] at inside
      exact isZero (Nat.le_zero.mp inside)

end Pattern

/-! ## Scanners -/

/-- A rule: what it matches, and the token for a match unless this is skipped. -/
structure Rule (α Token : Type) where
  pattern : Pattern α
  action : List α → Option Token

variable {α Token : Type} {rules before after : List (Rule α Token)} {rule : Rule α Token}
  {word rest text : List α} {n : Nat}

/-- The rule with the longest match, the first one of several, and the length of the match. -/
def best : List (Rule α Token) → List α → Option (Rule α Token × Nat)
  | [], _ => none
  | rule :: rules, text =>
      match rule.pattern.longest text, best rules text with
      | none, other => other
      | some n, none => some (rule, n)
      | some n, some (other, m) => if m ≤ n then some (rule, n) else some (other, m)

/-- The tokens of a text behind some of its characters; a character at which no rule matches is
skipped. -/
def scanBehind (rules : List (Rule α Token)) : Nat → List α → List Token
  | _, [] => []
  | matched + 1, _ :: rest => scanBehind rules matched rest
  | 0, c :: rest =>
      match best rules (c :: rest) with
      | some (rule, n + 1) =>
          (rule.action ((c :: rest).take (n + 1))).toList ++ scanBehind rules n rest
      | _ => scanBehind rules 0 rest

def scan (rules : List (Rule α Token)) (text : List α) : List Token :=
  scanBehind rules 0 text

theorem scanBehind_append : scanBehind rules word.length (word ++ rest) = scan rules rest := by
  induction word with
  | nil => rfl
  | cons c word induction => exact induction

/-- No rule matches a longer start of the text than this word. -/
def NoLonger (rules : List (Rule α Token)) (word rest : List α) : Prop :=
  ∀ rule ∈ rules, ∀ more, more ≠ [] → more <+: rest → word ++ more ∉ rule.pattern.language

theorem best_le {other : Rule α Token} (found : best rules (word ++ rest) = some (other, n))
    (noLonger : NoLonger rules word rest) : n ≤ word.length := by
  induction rules generalizing other n with
  | nil => cases found
  | cons rule rules induction =>
      obtain ⟨ofRule, ofRules⟩ := List.forall_mem_cons.mp noLonger
      have atRule {m : Nat} (isMatch : rule.pattern.longest (word ++ rest) = some m) :
          m ≤ word.length := by
        by_contra isLonger
        have atLeast : word.length ≤ m := by omega
        have isEqual := Pattern.longest_append isMatch atLeast ofRule
        omega
      rw [best] at found
      cases isMatch : rule.pattern.longest (word ++ rest) with
      | none =>
          simp only [isMatch] at found
          exact induction found ofRules
      | some m =>
          cases behind : best rules (word ++ rest) with
          | none =>
              simp only [isMatch, behind] at found
              obtain ⟨_, rfl⟩ := Prod.mk.inj (Option.some.inj found)
              exact atRule isMatch
          | some pair =>
              obtain ⟨behindRule, k⟩ := pair
              simp only [isMatch, behind] at found
              split_ifs at found with isLess
              · obtain ⟨_, rfl⟩ := Prod.mk.inj (Option.some.inj found)
                exact atRule isMatch
              · obtain ⟨_, rfl⟩ := Prod.mk.inj (Option.some.inj found)
                exact induction behind ofRules

theorem best_eq (member : word ∈ rule.pattern.language)
    (first : ∀ other ∈ before, word ∉ other.pattern.language)
    (noLonger : NoLonger (before ++ rule :: after) word rest) :
    best (before ++ rule :: after) (word ++ rest) = some (rule, word.length) := by
  induction before with
  | nil =>
      obtain ⟨ofRule, ofRules⟩ := List.forall_mem_cons.mp noLonger
      obtain ⟨n, atLeast, isMatch⟩ := @Pattern.exists_longest _ _ word rest member
      obtain rfl := Pattern.longest_append isMatch atLeast ofRule
      rw [List.nil_append, best, isMatch]
      cases behind : best after (word ++ rest) with
      | none => rfl
      | some pair => exact if_pos (best_le behind ofRules)
  | cons other before induction =>
      rw [List.forall_mem_cons] at first
      obtain ⟨ofOther, ofRules⟩ := List.forall_mem_cons.mp noLonger
      rw [List.cons_append, best, induction first.2 ofRules]
      cases isMatch : other.pattern.longest (word ++ rest) with
      | none => rfl
      | some n =>
          refine if_neg ?_
          intro atLeast
          obtain rfl := Pattern.longest_append isMatch atLeast ofOther
          obtain ⟨_, isWord⟩ := Pattern.mem_of_longest isMatch
          rw [List.take_append_length] at isWord
          exact first.1 isWord

/-- A word is a token if no rule matches more and no earlier rule matches the word. -/
theorem scan_append (notEmpty : word ≠ []) (member : word ∈ rule.pattern.language)
    (first : ∀ other ∈ before, word ∉ other.pattern.language)
    (noLonger : NoLonger (before ++ rule :: after) word rest) :
    scan (before ++ rule :: after) (word ++ rest) =
      (rule.action word).toList ++ scan (before ++ rule :: after) rest := by
  have found := best_eq member first noLonger
  cases word with
  | nil => exact absurd rfl notEmpty
  | cons c word =>
      rw [List.cons_append] at found ⊢
      rw [scan, scanBehind, found]
      dsimp only [List.length_cons]
      rw [scanBehind_append, ← List.length_cons, ← List.cons_append, List.take_append_length]

end Pmgd.LongestMatch
