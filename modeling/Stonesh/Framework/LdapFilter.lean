import Stonesh.Framework.Block
import Stonesh.Framework.Text

/-!
# Search filters

The string form of an LDAP search filter: parenthesised conjunctions, disjunctions, negations and
tests of one attribute. In a value a star is a wildcard and a backslash makes the next character
a literal one. What a test means for an entry is left to the directory; the meaning of a filter is
built from the tests by the connectives.
-/

namespace LdapFilter

open CLib

inductive Piece
  | byte (c : Byte)
  | any
  deriving DecidableEq, Repr

inductive Comparison
  | equal
  | approx
  | greaterOrEqual
  | lessOrEqual
  | extensible
  deriving DecidableEq, Repr

structure Test where
  attr : List Byte
  comparison : Comparison
  value : List Piece
  deriving DecidableEq, Repr

/-- Filters; the lists of the text form are folded into the binary connectives. -/
inductive Filter
  | top
  | bottom
  | test (t : Test)
  | and (f g : Filter)
  | or (f g : Filter)
  | not (f : Filter)
  deriving DecidableEq, Repr

/-- Whether an entry for which the tests hold as given satisfies the filter. -/
def Filter.eval (holds : Test → Bool) : Filter → Bool
  | .top => true
  | .bottom => false
  | .test t => holds t
  | .and f g => f.eval holds && g.eval holds
  | .or f g => f.eval holds || g.eval holds
  | .not f => !f.eval holds

/-- The value of a test, up to the parenthesis that closes it. -/
def parseValue : List Byte → Option (List Piece × List Byte)
  | [] => none
  | 41 :: r => some ([], r)
  | 40 :: _ => none
  | 42 :: r => (parseValue r).map fun p => (.any :: p.1, p.2)
  | 92 :: c :: r => (parseValue r).map fun p => (.byte c :: p.1, p.2)
  | 92 :: [] => none
  | c :: r => (parseValue r).map fun p => (.byte c :: p.1, p.2)

/-- The characters of an attribute description; the colons of an extensible match are kept. -/
def isAttributeChar (c : Byte) : Bool :=
  (48 ≤ c && c ≤ 59) || (65 ≤ c && c ≤ 90) || (97 ≤ c && c ≤ 122) || c == 45 || c == 46

def parseComparison (attr : List Byte) : List Byte → Option (Comparison × List Byte)
  | 61 :: r => some (if attr.getLast? = some 58 then .extensible else .equal, r)
  | 126 :: 61 :: r => some (.approx, r)
  | 62 :: 61 :: r => some (.greaterOrEqual, r)
  | 60 :: 61 :: r => some (.lessOrEqual, r)
  | _ => none

def parseTest (s : List Byte) : Option (Filter × List Byte) :=
  let attr := s.takeWhile isAttributeChar
  if attr = [] then none
  else
    match parseComparison attr (s.dropWhile isAttributeChar) with
    | none => none
    | some (comparison, r) =>
      (parseValue r).map fun p => (.test ⟨attr, comparison, p.1⟩, p.2)

mutual

/-- A filter with its parentheses; the fuel bounds the nesting and the length of lists. -/
def parseFilter : Nat → List Byte → Option (Filter × List Byte)
  | 0, _ => none
  | fuel + 1, 40 :: 38 :: r => parseList fuel .and .top r
  | fuel + 1, 40 :: 124 :: r => parseList fuel .or .bottom r
  | fuel + 1, 40 :: 33 :: r =>
    match parseFilter fuel r with
    | some (f, 41 :: r') => some (.not f, r')
    | _ => none
  | _ + 1, 40 :: r => parseTest r
  | _ + 1, _ => none

/-- The filters up to the closing parenthesis, folded with a connective. -/
def parseList : Nat → (Filter → Filter → Filter) → Filter → List Byte → Option (Filter × List Byte)
  | 0, _, _, _ => none
  | _ + 1, _, unit, 41 :: r => some (unit, r)
  | fuel + 1, join, unit, s =>
    match parseFilter fuel s with
    | none => none
    | some (f, r) => (parseList fuel join unit r).map fun p => (join f p.1, p.2)

end

/-- The filter a whole text denotes. -/
def parse (s : List Byte) : Option Filter :=
  match parseFilter (s.length + 1) s with
  | some (f, []) => some f
  | _ => none

/-- Text without a character that has a meaning in a value. -/
def Plain (v : List Byte) : Prop := ∀ c ∈ v, c ∉ bytes "()*\\"

instance (v : List Byte) : Decidable (Plain v) := inferInstanceAs (Decidable (∀ c ∈ v, _))

def literal (v : List Byte) : List Piece := v.map .byte

section
variable {v r : List Byte} {c : Byte}

private theorem parseValue_cons (hc : c ∉ bytes "()*\\") :
    parseValue (c :: r) = (parseValue r).map fun p => (.byte c :: p.1, p.2) := by
  have hne : c ≠ 40 ∧ c ≠ 41 ∧ c ≠ 42 ∧ c ≠ 92 := by
    refine ⟨?_, ?_, ?_, ?_⟩
    all_goals
      intro he
      rw [he] at hc
      exact hc (by decide)
  obtain ⟨h40, h41, h42, h92⟩ := hne
  rw [parseValue]
  · exact h41
  · exact h40
  · exact h42
  · exact fun d r' h => absurd h h92
  · exact fun h => absurd h h92

theorem parseValue_close : parseValue (41 :: r) = some ([], r) := by
  rw [parseValue]

theorem parseValue_plain (hv : Plain v) (w : List Byte) {p : List Piece × List Byte}
    (hw : parseValue w = some p) : parseValue (v ++ w) = some (literal v ++ p.1, p.2) := by
  induction v with
  | nil => simpa [literal] using hw
  | cons c v ih =>
    have hrest := ih fun d hd => hv d (List.mem_cons_of_mem _ hd)
    rw [List.cons_append, parseValue_cons (hv c (by simp)), hrest]
    rfl

/-- The text of a value is read as these pieces, up to the parenthesis behind it. -/
def ReadsValue (v : List Byte) (p : List Piece) : Prop :=
  ∀ r, parseValue (v ++ 41 :: r) = some (p, r)

theorem readsValue_nil : ReadsValue [] [] := fun _ => parseValue_close

theorem readsValue_escaped (c : Byte) : ReadsValue [92, c] [.byte c] := by
  intro r
  have hclose : parseValue (41 :: r) = some ([], r) := parseValue_close
  simp only [List.cons_append, List.nil_append]
  rw [parseValue, hclose]
  rfl

theorem ReadsValue.plain_append {w : List Byte} {p : List Piece} (hw : ReadsValue w p)
    (hv : Plain v) : ReadsValue (v ++ w) (literal v ++ p) := by
  intro r
  rw [List.append_assoc]
  exact parseValue_plain hv _ (hw r)

theorem readsValue_plain (hv : Plain v) : ReadsValue v (literal v) := by
  have h := readsValue_nil.plain_append hv
  rwa [List.append_nil, List.append_nil] at h

end

def equals (attr v : List Byte) : Filter := .test ⟨attr, .equal, literal v⟩

/-- With fuel enough the text is read as this filter, whatever follows it. -/
def Reads (n : Nat) (s : List Byte) (f : Filter) : Prop :=
  s.head? = some 40 ∧ ∀ fuel, n ≤ fuel → ∀ r, parseFilter fuel (s ++ r) = some (f, r)

/-- The texts of filters one after the other, up to a closing parenthesis. -/
def ReadsList (n : Nat) (s : List Byte) (fs : List Filter) : Prop :=
  ∀ fuel, n ≤ fuel → ∀ join unit r,
    parseList fuel join unit (s ++ 41 :: r) = some (fs.foldr join unit, r)

section
variable {a v s s' r : List Byte} {p : List Piece} {f : Filter} {fs : List Filter} {n m : Nat}

private theorem parseTest_equal (ha : ∀ c ∈ a, isAttributeChar c) (hne : a ≠ [])
    (hlast : a.getLast? ≠ some 58) (hv : ReadsValue v p) :
    parseTest (a ++ 61 :: (v ++ 41 :: r)) = some (.test ⟨a, .equal, p⟩, r) := by
  have htake : (a ++ 61 :: (v ++ 41 :: r)).takeWhile isAttributeChar = a :=
    Text.takeWhile_stop ha (by decide)
  have hdrop : (a ++ 61 :: (v ++ 41 :: r)).dropWhile isAttributeChar = 61 :: (v ++ 41 :: r) :=
    Text.dropWhile_stop ha (by decide)
  simp only [parseTest, htake, hne, if_false, hdrop, parseComparison, hlast, hv r, Option.map_some]

theorem parseFilter_test {fuel : Nat} {c : Byte} (hc : isAttributeChar c) (s : List Byte) :
    parseFilter (fuel + 1) (40 :: c :: s) = parseTest (c :: s) := by
  have hhead : c ≠ 38 ∧ c ≠ 124 ∧ c ≠ 33 := by
    refine ⟨?_, ?_, ?_⟩
    all_goals
      rintro rfl
      exact absurd hc (by decide)
  rw [parseFilter]
  · exact fun _ h => hhead.1 (List.cons.inj h).1
  · exact fun _ h => hhead.2.1 (List.cons.inj h).1
  · exact fun _ h => hhead.2.2 (List.cons.inj h).1

theorem reads_equals {w : List Byte} (ha : ∀ c ∈ a, isAttributeChar c) (hne : a ≠ [])
    (hlast : a.getLast? ≠ some 58) (hv : ReadsValue v (literal w)) :
    Reads 1 (40 :: a ++ 61 :: v ++ [41]) (equals a w) := by
  refine ⟨rfl, ?_⟩
  intro fuel hfuel r
  obtain ⟨fuel, rfl⟩ : ∃ k, fuel = k + 1 := ⟨fuel - 1, by omega⟩
  have htext : 40 :: a ++ 61 :: v ++ [41] ++ r = 40 :: (a ++ 61 :: (v ++ 41 :: r)) := by simp
  obtain ⟨c, a, rfl⟩ := List.exists_cons_of_ne_nil hne
  rw [htext, List.cons_append, parseFilter_test (ha c (by simp)), ← List.cons_append]
  exact parseTest_equal ha hne hlast hv

theorem readsList_nil : ReadsList 1 [] [] := by
  intro fuel hfuel join unit r
  obtain ⟨fuel, rfl⟩ : ∃ k, fuel = k + 1 := ⟨fuel - 1, by omega⟩
  rfl

theorem Reads.cons (hf : Reads n s f) (hfs : ReadsList m s' fs) :
    ReadsList (max n m + 1) (s ++ s') (f :: fs) := by
  intro fuel hfuel join unit r
  obtain ⟨fuel, rfl⟩ : ∃ k, fuel = k + 1 := ⟨fuel - 1, by omega⟩
  obtain ⟨hhead, hread⟩ := hf
  have hne (t u : List Byte) (h : s ++ t = 41 :: u) : False := by
    cases s with
    | nil => simp at hhead
    | cons c s =>
      simp only [List.head?_cons, Option.some.injEq] at hhead
      simp only [List.cons_append, List.cons.injEq] at h
      rw [hhead] at h
      exact absurd h.1 (by decide)
  rw [List.append_assoc, parseList, hread fuel (by omega)]
  · simp only [hfs fuel (by omega) join unit r, Option.map_some, List.foldr_cons]
  · exact fun u h => hne _ u h

theorem ReadsList.and (h : ReadsList n s fs) :
    Reads (n + 1) (40 :: 38 :: s ++ [41]) (fs.foldr .and .top) := by
  refine ⟨rfl, ?_⟩
  intro fuel hfuel r
  obtain ⟨fuel, rfl⟩ : ∃ k, fuel = k + 1 := ⟨fuel - 1, by omega⟩
  have hlist := h fuel (by omega) .and .top r
  simpa [parseFilter] using hlist

theorem ReadsList.or (h : ReadsList n s fs) :
    Reads (n + 1) (40 :: 124 :: s ++ [41]) (fs.foldr .or .bottom) := by
  refine ⟨rfl, ?_⟩
  intro fuel hfuel r
  obtain ⟨fuel, rfl⟩ : ∃ k, fuel = k + 1 := ⟨fuel - 1, by omega⟩
  have hlist := h fuel (by omega) .or .bottom r
  simpa [parseFilter] using hlist

theorem Reads.parse (h : Reads n s f) (hn : n ≤ s.length + 1) : parse s = some f := by
  have hread := h.2 (s.length + 1) hn []
  rw [List.append_nil] at hread
  rw [LdapFilter.parse, hread]

end

/-- Whatever is read at the beginning of the text, it has at most `n` pieces. A byte gives one piece at
most, so a value with a backslash in it has fewer pieces than bytes. -/
def Pieces (n : Nat) (z : List Byte) : Prop := ∀ p r, parseValue z = some (p, r) → p.length ≤ n

theorem Pieces.mono {m n : Nat} {z : List Byte} (h : Pieces m z) (hle : m ≤ n) : Pieces n z :=
  fun p r hread => Nat.le_trans (h p r hread) hle

theorem ReadsValue.pieces {v : List Byte} {p : List Piece} (h : ReadsValue v p) (r : List Byte) :
    Pieces p.length (v ++ 41 :: r) := by
  intro p' r' hread
  rw [h r] at hread
  obtain ⟨rfl, -⟩ := Prod.mk.inj (Option.some.inj hread)
  exact Nat.le_refl _

section
variable {v z r : List Byte} {p q : List Piece} {n : Nat}

private theorem parseValue_head {c : Byte} {s : List Byte} (h : parseValue (c :: s) = some (p, r)) :
    (c = 41 ∧ p = []) ∨ (c = 42 ∧ ∃ p', p = .any :: p' ∧ parseValue s = some (p', r)) ∨
      (c = 92 ∧ ∃ d s' p', s = d :: s' ∧ p = .byte d :: p' ∧ parseValue s' = some (p', r)) ∨
      (c ∉ bytes "()*\\" ∧ ∃ p', p = .byte c :: p' ∧ parseValue s = some (p', r)) := by
  have hmap {piece : Piece} {t : List Byte} (h : (parseValue t).map (fun a => (piece :: a.1, a.2)) =
      some (p, r)) : ∃ p', p = piece :: p' ∧ parseValue t = some (p', r) := by
    obtain ⟨⟨p', r'⟩, hread, heq⟩ := Option.map_eq_some_iff.mp h
    obtain ⟨rfl, rfl⟩ := Prod.mk.inj heq
    exact ⟨p', rfl, hread⟩
  by_cases hc : c ∈ bytes "()*\\"
  · have hcases : c = 40 ∨ c = 41 ∨ c = 42 ∨ c = 92 := by
      have hlist : c ∈ [(40 : Byte), 41, 42, 92] := hc
      simpa using hlist
    rcases hcases with rfl | rfl | rfl | rfl
    · rw [parseValue] at h
      simp at h
    · rw [parseValue_close] at h
      exact Or.inl ⟨rfl, (Prod.mk.inj (Option.some.inj h)).1.symm⟩
    · rw [parseValue] at h
      exact Or.inr (Or.inl ⟨rfl, hmap h⟩)
    · cases s with
      | nil => simp [parseValue] at h
      | cons d s' =>
        rw [parseValue] at h
        obtain ⟨p', hp, hread⟩ := hmap h
        exact Or.inr (Or.inr (Or.inl ⟨rfl, d, s', p', rfl, hp, hread⟩))
  · rw [parseValue_cons hc] at h
    exact Or.inr (Or.inr (Or.inr ⟨hc, hmap h⟩))

theorem Pieces.append (hz : Pieces n z) (htail : Pieces n z.tail) (v : List Byte) :
    Pieces (v.length + n) (v ++ z) := by
  induction hlen : v.length using Nat.strong_induction_on generalizing v with
  | _ len ih =>
    intro p r h
    cases v with
    | nil =>
      have hle := hz p r h
      omega
    | cons c v =>
      rw [List.length_cons] at hlen
      rcases parseValue_head h with ⟨-, rfl⟩ | ⟨-, p', rfl, h'⟩ | ⟨-, d, s', p', hs, rfl, h'⟩ | ⟨-, p', rfl, h'⟩
      · exact Nat.zero_le _
      · have hle := ih v.length (by omega) v rfl p' r h'
        rw [List.length_cons]
        omega
      · cases v with
        | nil =>
          have hcons : z = d :: s' := hs
          subst hcons
          have hle := htail p' r h'
          rw [List.length_cons]
          omega
        | cons e v =>
          obtain ⟨-, rfl⟩ := List.cons.inj hs
          rw [List.length_cons] at hlen
          have hle := ih v.length (by omega) v rfl p' r h'
          rw [List.length_cons]
          omega
      · have hle := ih v.length (by omega) v rfl p' r h'
        rw [List.length_cons]
        omega

/-- A value that is read as the bytes it is written with, and then as at least what follows can
give, has no special character. -/
theorem plain_of_read (hz : Pieces q.length z) (htail : Pieces q.length z.tail)
    (hhead : z.head? ≠ some 92) (h : parseValue (v ++ z) = some (literal v ++ q, r)) : Plain v := by
  induction v with
  | nil => exact fun _ hc => absurd hc List.not_mem_nil
  | cons c v ih =>
    have hliteral : literal (c :: v) ++ q = .byte c :: (literal v ++ q) := rfl
    rw [hliteral] at h
    rcases parseValue_head h with ⟨-, hnil⟩ | ⟨-, p', hany, -⟩ | ⟨hc, d, s', p', hs, hp, h'⟩ | ⟨hc, p', hp, h'⟩
    · exact absurd hnil (List.cons_ne_nil _ _)
    · exact absurd (List.cons.inj hany).1 (by simp)
    · obtain ⟨hd, rfl⟩ := List.cons.inj hp
      obtain rfl : c = d := Piece.byte.inj hd
      subst hc
      cases v with
      | nil =>
        have hcons : z = 92 :: s' := hs
        subst hcons
        exact absurd rfl hhead
      | cons e v =>
        obtain ⟨-, rfl⟩ := List.cons.inj hs
        have hle := hz.append htail v _ _ h'
        simp only [literal, List.map_cons, List.length_cons, List.length_append, List.length_map] at hle
        omega
    · obtain ⟨-, rfl⟩ := List.cons.inj hp
      intro d hd
      rcases List.mem_cons.mp hd with rfl | hd
      · exact hc
      · exact ih h' d hd

end

section
variable {join : Filter → Filter → Filter} {unit f g : Filter} {fuel n : Nat} {s t r : List Byte}

theorem parseList_cons (h : parseList (fuel + 1) join unit (40 :: s) = some (g, r)) :
    ∃ f g' r', parseFilter fuel (40 :: s) = some (f, r') ∧ parseList fuel join unit r' = some (g', r) ∧
      g = join f g' := by
  rw [parseList] at h
  · cases hfilter : parseFilter fuel (40 :: s) with
    | none =>
      rw [hfilter] at h
      simp at h
    | some p =>
      rw [hfilter] at h
      obtain ⟨⟨g', r'⟩, hlist, heq⟩ := Option.map_eq_some_iff.mp h
      obtain ⟨rfl, rfl⟩ := Prod.mk.inj heq
      exact ⟨p.1, g', p.2, rfl, hlist, rfl⟩
  · exact fun u hu => absurd (List.cons.inj hu).1 (by decide)

/-- The connective keeps both of its parts. -/
def Faithful (join : Filter → Filter → Filter) : Prop :=
  ∀ f g f' g', join f g = join f' g' → f = f' ∧ g = g'

theorem faithful_and : Faithful .and := fun _ _ _ _ h => Filter.and.inj h

theorem faithful_or : Faithful .or := fun _ _ _ _ h => Filter.or.inj h

theorem Reads.rest (hs : Reads n s f) (hn : n ≤ fuel) (hjoin : Faithful join)
    (h : parseList (fuel + 1) join unit (s ++ t) = some (join f g, r)) :
    parseList fuel join unit t = some (g, r) := by
  obtain ⟨hhead, hread⟩ := hs
  obtain ⟨s, rfl⟩ : ∃ u, s = 40 :: u := by
    cases s with
    | nil => simp at hhead
    | cons c s => exact ⟨s, by rw [Option.some.inj hhead]⟩
  rw [List.cons_append] at h
  obtain ⟨f', g', r', hfilter, hlist, heq⟩ := parseList_cons h
  have hknown := hread fuel hn t
  rw [List.cons_append, hfilter] at hknown
  obtain ⟨rfl, rfl⟩ := Prod.mk.inj (Option.some.inj hknown)
  obtain ⟨-, rfl⟩ := hjoin _ _ _ _ heq
  exact hlist

theorem parseFilter_and (h : parseFilter (fuel + 1) (40 :: 38 :: s) = some (f, r)) :
    parseList fuel .and .top s = some (f, r) := by
  rwa [parseFilter] at h

theorem parseFilter_or (h : parseFilter (fuel + 1) (40 :: 124 :: s) = some (f, r)) :
    parseList fuel .or .bottom s = some (f, r) := by
  rwa [parseFilter] at h

theorem plain_of_test {a v w z : List Byte} (ha : ∀ c ∈ a, isAttributeChar c) (hne : a ≠ [])
    (hlast : a.getLast? ≠ some 58) (hjoin : Faithful join) (hz : Pieces w.length z)
    (htail : Pieces w.length z.tail) (hhead : z.head? ≠ some 92)
    (h : parseList (fuel + 1) join unit (40 :: a ++ 61 :: (v ++ z)) =
      some (join (equals a (v ++ w)) g, r)) : Plain v := by
  obtain ⟨c, a, rfl⟩ := List.exists_cons_of_ne_nil hne
  rw [List.cons_append] at h
  obtain ⟨f, g', r', hfilter, -, heq⟩ := parseList_cons h
  obtain ⟨hf, -⟩ := hjoin _ _ _ _ heq
  cases fuel with
  | zero => simp [parseFilter] at hfilter
  | succ fuel =>
    rw [List.cons_append, parseFilter_test (ha c (by simp)), ← List.cons_append] at hfilter
    have htake : ((c :: a) ++ 61 :: (v ++ z)).takeWhile isAttributeChar = c :: a :=
      Text.takeWhile_stop ha (by decide)
    have hdrop : ((c :: a) ++ 61 :: (v ++ z)).dropWhile isAttributeChar = 61 :: (v ++ z) :=
      Text.dropWhile_stop ha (by decide)
    simp only [parseTest, htake, hne, if_false, hdrop, parseComparison, hlast] at hfilter
    obtain ⟨⟨p, r''⟩, hvalue, hpair⟩ := Option.map_eq_some_iff.mp hfilter
    have hp : .test ⟨c :: a, .equal, p⟩ = f := (Prod.mk.inj hpair).1
    have hpieces : p = literal v ++ literal w := by
      rw [← hp, equals, Filter.test.injEq, Test.mk.injEq] at hf
      rw [← hf.2.2]
      exact List.map_append
    have hlen : (literal w).length = w.length := List.length_map _
    rw [hpieces] at hvalue
    exact plain_of_read (hlen ▸ hz) (hlen ▸ htail) hhead hvalue

end

end LdapFilter
