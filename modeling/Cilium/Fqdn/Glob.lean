import Cilium.Fqdn.MatchPattern
import Mathlib.Data.List.TakeWhile

/-! What a `MatchPattern` means, as `pkg/fqdn/matchpattern` documents it, and that the expression
`ToAnchoredRegexp` writes for a pattern that `prevalidate` accepts compiles to one that matches
exactly the names the pattern means: a `.` is a dot, a leading run of two stars or more and a dot
is one or more whole labels, and every other `*` is a run of `[-a-zA-Z0-9_]`, never a dot. -/

namespace Cilium.Fqdn.MatchPattern

/-- One or more whole labels of `[-a-zA-Z0-9_]`, each followed by a dot. -/
inductive Labels : List Char → Prop
  | one {l : List Char} : l ≠ [] → (∀ d ∈ l, isDNSChar d = true) → Labels (l ++ ['.'])
  | cons {l s : List Char} : l ≠ [] → (∀ d ∈ l, isDNSChar d = true) → Labels s →
      Labels (l ++ '.' :: s)

/-- A pattern read without a subdomain prefix: a `*` matches a run of `[-a-zA-Z0-9_]`, so a run
of stars does too, and every other character matches itself. -/
inductive StarMatch : List Char → List Char → Prop
  | nil : StarMatch [] []
  | lit {c : Char} {p s : List Char} : c ≠ '*' → StarMatch p s → StarMatch (c :: p) (c :: s)
  | star {p u s : List Char} : (∀ d ∈ u, isDNSChar d = true) → StarMatch p s →
      StarMatch ('*' :: p) (u ++ s)

/-- The meaning of a pattern that is not a bare wildcard: a leading run of two stars or more and
a dot matches one or more whole labels, and the rest is read as `StarMatch` reads it. -/
inductive GlobMatch : List Char → List Char → Prop
  | subdomains {k : ℕ} {rest u v : List Char} : 2 ≤ k → Labels u → StarMatch rest v →
      GlobMatch (List.replicate k '*' ++ '.' :: rest) (u ++ v)
  | plain {p s : List Char} : (∀ k rest, 2 ≤ k → p ≠ List.replicate k '*' ++ '.' :: rest) →
      StarMatch p s → GlobMatch p s

/-! ### The meaning, case by case -/

theorem labels_iff {s : List Char} :
    Labels s ↔ ∃ l r, l ≠ [] ∧ (∀ d ∈ l, isDNSChar d = true) ∧ s = l ++ '.' :: r ∧
      (r = [] ∨ Labels r) := by
  constructor
  · rintro (⟨hl, hd⟩ | ⟨hl, hd, hs⟩)
    · exact ⟨_, [], hl, hd, rfl, .inl rfl⟩
    · exact ⟨_, _, hl, hd, rfl, .inr hs⟩
  · rintro ⟨l, r, hl, hd, rfl, rfl | hr⟩
    · exact .one hl hd
    · exact .cons hl hd hr

theorem starMatch_nil_iff {s : List Char} : StarMatch [] s ↔ s = [] := by
  constructor
  · rintro ⟨⟩
    rfl
  · rintro rfl
    exact .nil

theorem starMatch_lit_iff {c : Char} {p s : List Char} (hc : c ≠ '*') :
    StarMatch (c :: p) s ↔ ∃ s', s = c :: s' ∧ StarMatch p s' := by
  constructor
  · rintro (_ | ⟨_, h⟩ | ⟨_, _⟩)
    · exact ⟨_, rfl, h⟩
    · exact absurd rfl hc
  · rintro ⟨s', rfl, h⟩
    exact .lit hc h

theorem starMatch_star_iff {p s : List Char} :
    StarMatch ('*' :: p) s ↔
      ∃ u v, s = u ++ v ∧ (∀ d ∈ u, isDNSChar d = true) ∧ StarMatch p v := by
  constructor
  · rintro (_ | ⟨hc, _⟩ | ⟨hu, h⟩)
    · exact absurd rfl hc
    · exact ⟨_, _, rfl, hu, h⟩
  · rintro ⟨u, v, rfl, hu, h⟩
    exact .star hu h

/-! ### The expression, piece by piece -/

/-- `[-a-zA-Z0-9_]*` then `k`: some run of DNS characters, and `k` on the rest. -/
theorem dnsCharsThen_iff (k : List Char → Bool) (s : List Char) :
    dnsCharsThen k s = true ↔
      ∃ u v, s = u ++ v ∧ (∀ d ∈ u, isDNSChar d = true) ∧ k v = true := by
  induction s with
  | nil => simp [dnsCharsThen]
  | cons d s ih =>
    simp only [dnsCharsThen, Bool.or_eq_true, Bool.and_eq_true, ih]
    constructor
    · rintro (hk | ⟨hd, u, v, rfl, hu, hk⟩)
      · exact ⟨[], _, rfl, by simp, hk⟩
      · exact ⟨d :: u, v, rfl, List.forall_mem_cons.mpr ⟨hd, hu⟩, hk⟩
    · rintro ⟨_ | ⟨d', u⟩, v, hs, hu, hk⟩
      · exact .inl (hs ▸ hk)
      · obtain ⟨rfl, rfl⟩ := List.cons_eq_cons.mp hs
        exact .inr ⟨hu d List.mem_cons_self, u, v, rfl,
          fun x hx => hu x (List.mem_cons_of_mem d hx), hk⟩

/-- Two runs of DNS characters in a row are one run. -/
theorem matchPieces_dnsChars_dnsChars (ps : List Piece) (s : List Char) :
    matchPieces (.dnsChars :: .dnsChars :: ps) s = matchPieces (.dnsChars :: ps) s := by
  apply Bool.eq_iff_iff.mpr
  simp only [matchPieces, dnsCharsThen_iff]
  constructor
  · rintro ⟨u, v, rfl, hu, u', v', rfl, hu', hk⟩
    exact ⟨u ++ u', v', by simp, fun x hx => (List.mem_append.mp hx).elim (hu x) (hu' x), hk⟩
  · rintro ⟨u, v, rfl, hu, hk⟩
    exact ⟨u, v, rfl, hu, [], v, rfl, by simp, hk⟩

theorem matchPieces_pieces_star (cs s : List Char) :
    matchPieces (pieces ('*' :: cs)) s = matchPieces (.dnsChars :: pieces cs) s := by
  simp only [pieces, beq_self_eq_true, if_true]
  split
  · next ps h => rw [h, matchPieces_dnsChars_dnsChars]
  · rfl

/-- The pieces of a pattern match exactly what the pattern means without a subdomain prefix. -/
theorem matchPieces_pieces (p s : List Char) :
    matchPieces (pieces p) s = true ↔ StarMatch p s := by
  induction p generalizing s with
  | nil =>
    rw [starMatch_nil_iff]
    cases s <;> simp [pieces, matchPieces]
  | cons c p ih =>
    by_cases hc : c = '*'
    · subst hc
      rw [matchPieces_pieces_star, starMatch_star_iff]
      simp only [matchPieces, dnsCharsThen_iff, ih]
    · have hp : pieces (c :: p) = .lit c :: pieces p := by
        simp [pieces, hc]
      rw [hp, starMatch_lit_iff hc]
      cases s with
      | nil => simp [matchPieces]
      | cons d s =>
        simp only [matchPieces, Bool.and_eq_true, beq_iff_eq, ih, List.cons.injEq]
        constructor
        · rintro ⟨rfl, h⟩
          exact ⟨s, ⟨rfl, rfl⟩, h⟩
        · rintro ⟨s', ⟨rfl, rfl⟩, h⟩
          exact ⟨rfl, h⟩

/-- The reader of `([-a-zA-Z0-9_]+[.])+`: inside a label it needs the rest of the label, a dot
and zero or more whole labels; at the start of a label, the end of the text once a label was
read, or whole labels. -/
theorem labelsFrom_iff (cs : List Char) :
    ∀ seen, (labelsFrom true seen cs = true ↔ ∃ l r, (∀ d ∈ l, isDNSChar d = true) ∧
        cs = l ++ '.' :: r ∧ (r = [] ∨ Labels r)) ∧
      (labelsFrom false seen cs = true ↔ (cs = [] ∧ seen = true) ∨ Labels cs) := by
  induction cs with
  | nil =>
    intro seen
    refine ⟨by simp [labelsFrom], ?_⟩
    simp only [labelsFrom, Bool.not_false, Bool.true_and, true_and]
    constructor
    · exact .inl
    · rintro (h | h)
      · exact h
      · obtain ⟨l, r, -, -, hs, -⟩ := labels_iff.mp h
        simp at hs
  | cons c cs ih =>
    intro seen
    have hdot : isDNSChar '.' = false := by decide
    refine ⟨?_, ?_⟩
    · by_cases hc : isDNSChar c = true
      · simp only [labelsFrom, hc, if_true, (ih seen).1]
        constructor
        · rintro ⟨l, r, hl, rfl, hr⟩
          exact ⟨c :: l, r, List.forall_mem_cons.mpr ⟨hc, hl⟩, rfl, hr⟩
        · rintro ⟨_ | ⟨d, l⟩, r, hl, hcs, hr⟩
          · obtain ⟨rfl, -⟩ := List.cons_eq_cons.mp hcs
            simp [hdot] at hc
          · obtain ⟨rfl, rfl⟩ := List.cons_eq_cons.mp hcs
            exact ⟨l, r, fun x hx => hl x (List.mem_cons_of_mem _ hx), rfl, hr⟩
      · simp only [labelsFrom, hc, Bool.false_eq_true, if_false, Bool.and_true, Bool.and_eq_true,
          beq_iff_eq, (ih true).2, and_true]
        constructor
        · rintro ⟨rfl, h⟩
          exact ⟨[], cs, by simp, rfl, h.imp_right id⟩
        · rintro ⟨_ | ⟨d, l⟩, r, hl, hcs, hr⟩
          · obtain ⟨rfl, rfl⟩ := List.cons_eq_cons.mp hcs
            exact ⟨rfl, hr⟩
          · obtain ⟨rfl, -⟩ := List.cons_eq_cons.mp hcs
            exact absurd (hl c List.mem_cons_self) hc
    · by_cases hc : isDNSChar c = true
      · simp only [labelsFrom, hc, if_true, (ih seen).1, reduceCtorEq, false_and, false_or]
        rw [labels_iff]
        constructor
        · rintro ⟨l, r, hl, rfl, hr⟩
          exact ⟨c :: l, r, by simp, List.forall_mem_cons.mpr ⟨hc, hl⟩, rfl, hr⟩
        · rintro ⟨_ | ⟨d, l⟩, r, hne, hl, hcs, hr⟩
          · exact absurd rfl hne
          · obtain ⟨rfl, rfl⟩ := List.cons_eq_cons.mp hcs
            exact ⟨l, r, fun x hx => hl x (List.mem_cons_of_mem _ hx), rfl, hr⟩
      · simp only [labelsFrom, hc, Bool.false_eq_true, if_false, Bool.and_false, Bool.false_and,
          reduceCtorEq, false_and, false_or, false_iff]
        rw [labels_iff]
        rintro ⟨_ | ⟨d, l⟩, r, hne, hl, hcs, -⟩
        · exact hne rfl
        · obtain ⟨rfl, -⟩ := List.cons_eq_cons.mp hcs
          exact hc (hl c List.mem_cons_self)

theorem isDNSLabels_iff (cs : List Char) : isDNSLabels cs = true ↔ Labels cs := by
  rw [isDNSLabels, ((labelsFrom_iff cs) false).2]
  simp

/-- The subdomain expression matches whole labels followed by what its pieces match. -/
theorem matchString_subdomains (body : List Piece) (s : String) :
    (Regexp.anchored true body).matchString s = true ↔
      ∃ u v, s.toList = u ++ v ∧ Labels u ∧ matchPieces body v = true := by
  simp only [Regexp.matchString, List.any_eq_true, List.mem_range, Bool.and_eq_true,
    isDNSLabels_iff]
  constructor
  · rintro ⟨i, -, hu, hv⟩
    exact ⟨_, _, (List.take_append_drop i s.toList).symm, hu, hv⟩
  · rintro ⟨u, v, hs, hu, hv⟩
    refine ⟨u.length, by rw [hs, List.length_append]; omega, ?_, ?_⟩
    · rwa [hs, List.take_left]
    · rwa [hs, List.drop_left]

/-! ### The subdomain prefix -/

theorem takeWhile_star_eq_replicate (p : List Char) :
    p.takeWhile (· == '*') = List.replicate (p.takeWhile (· == '*')).length '*' :=
  List.eq_replicate_iff.mpr ⟨rfl, fun c hc => by simpa using List.mem_takeWhile_imp hc⟩

theorem takeWhile_replicate_star (k : ℕ) (rest : List Char) :
    (List.replicate k '*' ++ '.' :: rest).takeWhile (· == '*') = List.replicate k '*' := by
  induction k with
  | zero => simp
  | succ k ih => simp [List.replicate_succ, ih]

theorem dropWhile_replicate_star (k : ℕ) (rest : List Char) :
    (List.replicate k '*' ++ '.' :: rest).dropWhile (· == '*') = '.' :: rest := by
  induction k with
  | zero => simp
  | succ k ih => simp [List.replicate_succ, ih]

/-- A pattern has a subdomain prefix exactly when `escapedRegexp` finds one. -/
theorem subdomainPrefix_iff (p rest : List Char) :
    (∃ k, 2 ≤ k ∧ p = List.replicate k '*' ++ '.' :: rest) ↔
      p.dropWhile (· == '*') = '.' :: rest ∧ 2 ≤ (p.takeWhile (· == '*')).length := by
  constructor
  · rintro ⟨k, hk, rfl⟩
    rw [dropWhile_replicate_star, takeWhile_replicate_star, List.length_replicate]
    exact ⟨rfl, hk⟩
  · rintro ⟨hd, hk⟩
    refine ⟨_, hk, ?_⟩
    rw [← takeWhile_star_eq_replicate, ← hd, List.takeWhile_append_dropWhile]

theorem globMatch_iff {p s : List Char} :
    GlobMatch p s ↔
      (∃ k rest u v, 2 ≤ k ∧ p = List.replicate k '*' ++ '.' :: rest ∧ s = u ++ v ∧ Labels u ∧
        StarMatch rest v) ∨
      ((∀ k rest, 2 ≤ k → p ≠ List.replicate k '*' ++ '.' :: rest) ∧ StarMatch p s) := by
  constructor
  · rintro (⟨hk, hu, hv⟩ | ⟨hnot, h⟩)
    · exact .inl ⟨_, _, _, _, hk, rfl, rfl, hu, hv⟩
    · exact .inr ⟨hnot, h⟩
  · rintro (⟨k, rest, u, v, hk, rfl, rfl, hu, hv⟩ | ⟨hnot, h⟩)
    · exact .subdomains hk hu hv
    · exact .plain hnot h

/-- The expression of a pattern that is not a bare wildcard matches what the pattern means. -/
theorem matchString_escapedRegexp (q s : String) :
    (escapedRegexp q).matchString s = true ↔ GlobMatch q.toList s.toList := by
  dsimp only [escapedRegexp]
  generalize q.toList = cs
  rw [globMatch_iff]
  split
  · next rest hd =>
    split
    · next hk =>
      -- `escapedRegexp` found the prefix, and `GlobMatch` reads the same one
      rw [matchString_subdomains]
      simp only [matchPieces_pieces]
      constructor
      · rintro ⟨u, v, hs, hu, hv⟩
        obtain ⟨k, hk', hq⟩ := (subdomainPrefix_iff cs rest).mpr ⟨hd, hk⟩
        exact .inl ⟨k, rest, u, v, hk', hq, hs, hu, hv⟩
      · rintro (⟨k, rest', u, v, -, hq, hs, hu, hv⟩ | ⟨hnot, -⟩)
        · have hrest : '.' :: rest' = '.' :: rest := by
            rw [← hd, hq, dropWhile_replicate_star]
          obtain ⟨-, rfl⟩ := List.cons_eq_cons.mp hrest
          exact ⟨u, v, hs, hu, hv⟩
        · obtain ⟨k, hk', hq⟩ := (subdomainPrefix_iff cs rest).mpr ⟨hd, hk⟩
          exact absurd hq (hnot k rest hk')
    · next hk =>
      -- a single star before the dot: no prefix
      simp only [Regexp.matchString, matchPieces_pieces]
      have hnot : ∀ k rest', 2 ≤ k → cs ≠ List.replicate k '*' ++ '.' :: rest' :=
        fun k rest' hk' hq => hk ((subdomainPrefix_iff cs rest').mp ⟨k, hk', hq⟩).2
      constructor
      · exact fun h => .inr ⟨hnot, h⟩
      · rintro (⟨k, rest', u, v, hk', hq, -⟩ | ⟨-, h⟩)
        · exact absurd hq (hnot k rest' hk')
        · exact h
  · next hd =>
    simp only [Regexp.matchString, matchPieces_pieces]
    have hnot : ∀ k rest, 2 ≤ k → cs ≠ List.replicate k '*' ++ '.' :: rest :=
      fun k rest hk hq => hd rest ((subdomainPrefix_iff cs rest).mp ⟨k, hk, hq⟩).1
    constructor
    · exact fun h => .inr ⟨hnot, h⟩
    · rintro (⟨k, rest, u, v, hk, hq, -⟩ | ⟨-, h⟩)
      · exact absurd hq (hnot k rest hk)
      · exact h

/-! ### `ToAnchoredRegexp` -/

/-- `ToLower` keeps the characters that are not lower-case letters and that it fixes, such as a
star or a dot, and makes no other character into one of them. -/
theorem toLower_eq_iff_of {c d : Char} (hd : d.isLower = false) (hdd : d.toLower = d) :
    c.toLower = d ↔ c = d := by
  constructor
  · intro h
    rcases toLower_eq_or_isLower c with he | he
    · rw [← he, h]
    · rw [h, hd] at he
      cases he
  · rintro rfl
    exact hdd

/-- The test for a bare wildcard only reads stars and dots, which `ToLower` keeps. -/
theorem isDNSWildcard_toLower (p : String) : isDNSWildcard (toLower p) = isDNSWildcard p := by
  have hstar : ∀ c : Char, c.toLower = '*' ↔ c = '*' := fun c => toLower_eq_iff_of (by decide) rfl
  have hdot : ∀ c : Char, c.toLower = '.' ↔ c = '.' := fun c => toLower_eq_iff_of (by decide) rfl
  have hdrop : (p.toList.map Char.toLower).dropWhile (· == '*') =
      (p.toList.dropWhile (· == '*')).map Char.toLower := by
    rw [List.dropWhile_map]
    congr 2
    funext c
    simp [hstar]
  unfold isDNSWildcard
  rw [show (toLower p).toList = p.toList.map Char.toLower by simp [toLower], hdrop, List.head?_map]
  congr 1
  · cases p.toList.head? <;> simp [hstar]
  · generalize p.toList.dropWhile (· == '*') = d
    rcases d with _ | ⟨c, _ | ⟨c', d⟩⟩
    · rfl
    · -- one character left: a dot before and after `ToLower`, or neither
      by_cases hc : c = '.'
      · subst hc
        rfl
      · have hc' : c.toLower ≠ '.' := fun h => hc ((hdot c).mp h)
        split <;> split <;> simp_all
    · simp only [List.map_cons]
      split <;> simp_all

/-- For a pattern that `prevalidate` accepts, the text `ToAnchoredRegexp` writes compiles, and the
expression matches a name exactly when the lower-cased pattern means it; for a bare wildcard,
exactly the names of one or more whole labels, and the root. -/
theorem toAnchoredRegexp_matchString {p : String} (hp : prevalidate p = .ok ()) (s : String) :
    ∃ r, compileRegex (toAnchoredRegexp p) = .ok r ∧
      (isDNSWildcard p = false →
        (r.matchString s = true ↔ GlobMatch (toLower p).toList s.toList)) ∧
      (isDNSWildcard p = true → (r.matchString s = true ↔ Labels s.toList ∨ s.toList = ['.'])) := by
  have hwild := isDNSWildcard_toLower p
  refine ⟨anchoredRegexp p, compileRegex_toAnchoredRegexp hp, fun hw => ?_, fun hw => ?_⟩
  · simp only [anchoredRegexp, trimSpace_of_prevalidate hp, hwild, hw, Bool.false_eq_true,
      if_false]
    exact matchString_escapedRegexp _ s
  · simp only [anchoredRegexp, trimSpace_of_prevalidate hp, hwild, hw, if_true,
      Regexp.matchString, Bool.or_eq_true, isDNSLabels_iff, beq_iff_eq]

theorem toAnchoredRegexp_matchString_cilium :
    prevalidate "**.cilium.io" = .ok () ∧
      ∃ r, compileRegex (toAnchoredRegexp "**.cilium.io") = .ok r ∧
        (isDNSWildcard "**.cilium.io" = false →
          (r.matchString "a.b.cilium.io" = true ↔
            GlobMatch (toLower "**.cilium.io").toList "a.b.cilium.io".toList)) ∧
        (isDNSWildcard "**.cilium.io" = true →
          (r.matchString "a.b.cilium.io" = true ↔
            Labels "a.b.cilium.io".toList ∨ "a.b.cilium.io".toList = ['.'])) :=
  ⟨by decide +kernel, toAnchoredRegexp_matchString (by decide +kernel) _⟩

end Cilium.Fqdn.MatchPattern
