import Cilium.Identity.Labels
import Mathlib.Data.List.TakeWhile

/-! The names and selectors of FQDN policy: `dns.FQDN` (`pkg/fqdn/dns`), the patterns of
`pkg/fqdn/matchpattern`, and `FQDNSelector` with its identity label and regular expression
(`pkg/policy/api/fqdn.go`).  `ToAnchoredRegexp` is the source's text: three rewrites of the
pattern, one after the other.  `compileRegex` is `regexp.Compile` on the expressions those
rewrites write, and a compiled expression (`Regexp`) is the match-all expression or a list of
pieces after an optional run of whole labels; `MatchString` is membership in its language.
`compileRegex_toAnchoredRegexp` shows that the text of every pattern that passes `prevalidate`
compiles to `anchoredRegexp`, the expression read off the pattern directly.  `strings.ToLower`
and `strings.TrimSpace` are taken on ASCII letters and on the Latin-1 spaces, which is all that a
name or a pattern that passes validation can hold. -/

namespace Cilium.Fqdn

/-- `unicode.IsSpace`, on Latin-1. -/
def isSpace (c : Char) : Bool :=
  c == ' ' || c == '\t' || c == '\n' || c == '\x0b' || c == '\x0c' || c == '\r' || c == '\x85' ||
    c == '\xa0'

/-- `strings.ToLower`. -/
def toLower (s : String) : String := String.ofList (s.toList.map Char.toLower)

/-- `strings.TrimSpace`. -/
def trimSpace (s : String) : String :=
  String.ofList ((s.toList.dropWhile isSpace).reverse.dropWhile isSpace).reverse

/-- `strings.ReplaceAll` with a one-character `old`: each occurrence of `old` becomes `new`. -/
def replaceAll (old : Char) (new : List Char) : List Char → List Char
  | [] => []
  | c :: cs => if c = old then new ++ replaceAll old new cs else c :: replaceAll old new cs

namespace Dns

/-- `dns.isFQDN`: the name ends in a dot that no backslash escapes, that is after an even run of
backslashes. -/
def isFQDN (s : String) : Bool :=
  match s.toList.reverse with
  | '.' :: rest => (rest.takeWhile (· == '\\')).length % 2 == 0
  | _ => false

/-- `dns.FQDN`: the name in lower case, with the final dot added when it is missing. -/
def fqdn (s : String) : String := if isFQDN s then toLower s else toLower s ++ "."

end Dns

namespace MatchPattern

/-- `allowedDNSCharsREGroup`, `[-a-zA-Z0-9_]`. -/
def isDNSChar (c : Char) : Bool := c == '-' || c.isAlphanum || c == '_'

/-- The pieces of a regular expression from `escapeRegexpCharacters`: a character, or
`[-a-zA-Z0-9_]*`. -/
inductive Piece where
  | lit (c : Char)
  | dnsChars
  deriving DecidableEq, Repr

/-- The regular expressions of `ToAnchoredRegexp`: `(^([-a-zA-Z0-9_]+[.])+$)|(^[.]$)` for a bare
wildcard, or `^` and the pieces and `$`, with `dnsWildcardREGroup` first when `subdomains`. -/
inductive Regexp where
  | matchAll
  | anchored (subdomains : Bool) (body : List Piece)
  deriving DecidableEq, Repr

/-- `dnsWildcardRegex`, `^[*]{1,}[.]?$`. -/
def isDNSWildcard (s : String) : Bool :=
  s.toList.head? == some '*' && match s.toList.dropWhile (· == '*') with
    | [] => true
    | ['.'] => true
    | _ => false

/-- `allowedPatternChars`, `^[-a-zA-Z0-9_.*]+$`. -/
def allowedPatternChars (s : String) : Bool :=
  !s.toList.isEmpty && s.toList.all fun c => isDNSChar c || c == '.' || c == '*'

/-- `MaxFQDNLength`. -/
def maxFQDNLength : Nat := 255

/-! ### The text of the expression -/

/-- `allowedDNSCharsREGroup`. -/
def allowedDNSCharsREGroup : String := "[-a-zA-Z0-9_]"

/-- `dnsWildcardREGroup`: one or more whole labels, each with its dot. -/
def dnsWildcardREGroup : String :=
  "(" ++ allowedDNSCharsREGroup ++ "+" ++ "([.]" ++ allowedDNSCharsREGroup ++ "+)\x7b0,\x7d)[.]"

/-- The expression `ToAnchoredRegexp` writes for a bare wildcard. -/
def matchAllDNSNames : String := "(^(" ++ allowedDNSCharsREGroup ++ "+[.])+$)|(^[.]$)"

/-- `subdomainWildcardSpecifierPrefix.ReplaceAllString(pattern, repl)`.  The expression
`^[*]{2,}\[\.\]` matches only at the start: a run of two stars or more, then `[.]`, all of which
becomes `repl` (which holds no `$` to expand). -/
def replaceSubdomainWildcardPrefix (repl cs : List Char) : List Char :=
  match cs.dropWhile (· == '*') with
  | '[' :: '.' :: ']' :: rest => if 2 ≤ (cs.takeWhile (· == '*')).length then repl ++ rest else cs
  | _ => cs

/-- The loop of `wildcardSpecifier.ReplaceAllString(pattern, repl)`; `inRun` says the character
before was a star of a run already replaced. -/
def replaceWildcardsFrom (repl : List Char) : Bool → List Char → List Char
  | _, [] => []
  | inRun, c :: cs =>
    if c = '*' then (if inRun then [] else repl) ++ replaceWildcardsFrom repl true cs
    else c :: replaceWildcardsFrom repl false cs

/-- `wildcardSpecifier.ReplaceAllString(pattern, repl)`: the expression `[*]{1,}` matches each
maximal run of stars, which becomes `repl` (which holds no `$` to expand). -/
def replaceWildcards (repl cs : List Char) : List Char := replaceWildcardsFrom repl false cs

/-- `escapeRegexpCharacters`: a dot becomes `[.]`; then a leading run of two stars or more before
the escaped dot becomes `dnsWildcardREGroup`; then every run of stars becomes
`[-a-zA-Z0-9_]*`. -/
def escapeRegexpCharacters (pattern : String) : String :=
  let cs := replaceAll '.' "[.]".toList pattern.toList
  let cs := replaceSubdomainWildcardPrefix dnsWildcardREGroup.toList cs
  String.ofList (replaceWildcards (allowedDNSCharsREGroup ++ "*").toList cs)

/-- `ToAnchoredRegexp`. -/
def toAnchoredRegexp (pattern : String) : String :=
  let pattern := toLower (trimSpace pattern)
  if isDNSWildcard pattern then matchAllDNSNames
  else "^" ++ escapeRegexpCharacters pattern ++ "$"

/-! ### Compiled expressions -/

/-- The characters that are special in a Go expression outside a class. -/
def isRegexpSpecial (c : Char) : Bool := "\\.+*?()|[]\x7b\x7d^$".toList.contains c

/-- The pieces of the body of an anchored expression: `[.]` is a dot, `[-a-zA-Z0-9_]*` is a run of
DNS characters, and a character that is not special stands for itself. -/
def parsePieces : List Char → Option (List Piece)
  | [] => some []
  | '[' :: '.' :: ']' :: rest => (parsePieces rest).map (.lit '.' :: ·)
  | '[' :: '-' :: 'a' :: '-' :: 'z' :: 'A' :: '-' :: 'Z' :: '0' :: '-' :: '9' :: '_' :: ']' :: '*' ::
      rest => (parsePieces rest).map (.dnsChars :: ·)
  | c :: rest => if isRegexpSpecial c then none else (parsePieces rest).map (.lit c :: ·)

/-- `regexp.Compile` (through `re.CompileRegex`, whose cache changes nothing) on the expressions
that `ToAnchoredRegexp` writes: the match-all expression, or `^`, an optional
`dnsWildcardREGroup`, pieces, and `$`.  Go compiles other expressions as well; none of them comes
from a pattern that passes `prevalidate` (`compileRegex_toAnchoredRegexp`), and here they are an
error. -/
def compileRegex (s : String) : Except String Regexp :=
  if s = matchAllDNSNames then .ok .matchAll
  else match s.toList with
    | '^' :: rest =>
      match rest.reverse with
      | '$' :: body =>
        let body := body.reverse
        let group := dnsWildcardREGroup.toList
        let (subdomains, body) :=
          if group.isPrefixOf body then (true, body.drop group.length) else (false, body)
        match parsePieces body with
        | some ps => .ok (.anchored subdomains ps)
        | none => .error "unsupported regexp"
      | _ => .error "unsupported regexp"
    | _ => .error "unsupported regexp"

/-! ### The expression read off a pattern -/

/-- Every run of `*` is `[-a-zA-Z0-9_]*`, every other character stands for itself (a `.` for a
dot). -/
def pieces : List Char → List Piece
  | [] => []
  | c :: cs =>
    if c == '*' then
      match pieces cs with
      | .dnsChars :: ps => .dnsChars :: ps
      | ps => .dnsChars :: ps
    else .lit c :: pieces cs

/-- What the expression of `escapeRegexpCharacters` is: a leading run of two stars or more and a
dot is a run of whole labels, and the rest goes to pieces. -/
def escapedRegexp (pattern : String) : Regexp :=
  let cs := pattern.toList
  match cs.dropWhile (· == '*') with
  | '.' :: rest =>
    if 2 ≤ (cs.takeWhile (· == '*')).length then .anchored true (pieces rest)
    else .anchored false (pieces cs)
  | _ => .anchored false (pieces cs)

/-- What the expression of `ToAnchoredRegexp` is. -/
def anchoredRegexp (pattern : String) : Regexp :=
  let pattern := toLower (trimSpace pattern)
  if isDNSWildcard pattern then .matchAll else escapedRegexp pattern

/-- `Sanitize`: a bare wildcard stays, anything else is made a lower-case FQDN. -/
def sanitize (pattern : String) : String :=
  if isDNSWildcard pattern then pattern else Dns.fqdn pattern

/-- `prevalidate`. -/
def prevalidate (pattern : String) : Except String Unit :=
  if maxFQDNLength < (trimSpace pattern).utf8ByteSize then
    .error ("Invalid MatchPattern: \"" ++ pattern ++ "\". Must be <= 255 characters long.")
  else if 0 < pattern.utf8ByteSize && !allowedPatternChars pattern then
    .error ("Invalid characters in MatchPattern: \"" ++ pattern ++
      "\". Only 0-9, a-z, A-Z and ., -, _ and * characters are allowed")
  else .ok ()

/-- `Validate`. -/
def validate (pattern : String) : Except String Regexp := do
  prevalidate pattern
  compileRegex (toAnchoredRegexp pattern)

/-- `[-a-zA-Z0-9_]*` and then what `k` accepts. -/
def dnsCharsThen (k : List Char → Bool) : List Char → Bool
  | [] => k []
  | d :: s => k (d :: s) || (isDNSChar d && dnsCharsThen k s)

/-- The pieces match the whole text. -/
def matchPieces : List Piece → List Char → Bool
  | [], s => s.isEmpty
  | .lit _ :: _, [] => false
  | .lit c :: ps, d :: s => c == d && matchPieces ps s
  | .dnsChars :: ps, s => dnsCharsThen (matchPieces ps) s

/-- `([-a-zA-Z0-9_]+[.])+`, read inside a label or at its start; `seen` says a whole label has
been read. -/
def labelsFrom (inLabel seen : Bool) : List Char → Bool
  | [] => !inLabel && seen
  | c :: cs =>
    if isDNSChar c then labelsFrom true seen cs
    else c == '.' && inLabel && labelsFrom false true cs

/-- One or more whole labels, each with its dot: the language of `dnsWildcardREGroup` and of the
first half of the match-all expression. -/
def isDNSLabels (cs : List Char) : Bool := labelsFrom false false cs

/-- `Regexp.MatchString`. -/
def Regexp.matchString : Regexp → String → Bool
  | .matchAll, s => isDNSLabels s.toList || s.toList == ['.']
  | .anchored false body, s => matchPieces body s.toList
  | .anchored true body, s => (List.range (s.toList.length + 1)).any fun i =>
      isDNSLabels (s.toList.take i) && matchPieces body (s.toList.drop i)

end MatchPattern

open MatchPattern Labels

/-- `labels.parseSource` with the delimiter `:`: a leading `$` is the reserved source, else the
text before the first `:`. -/
def parseSource (s : String) : String × String :=
  match s.toList with
  | [] => ("", "")
  | '$' :: rest => (labelSourceReserved, String.ofList rest)
  | cs =>
    if ':' ∈ cs then (String.ofList (cs.takeWhile (· != ':')), String.ofList ((cs.dropWhile (· != ':')).drop 1))
    else ("", s)

/-- `labels.NewLabel`; the prefix a CIDR label caches is not kept here. -/
def newLabel (key value source : String) : Label :=
  let (src, key) := parseSource key
  let source := if source = "" then (if src = "" then "unspec" else src) else source
  if src = labelSourceReserved ∧ key = "" then ⟨value, "", source⟩ else ⟨key, value, source⟩

/-- `api.FQDNSelector`. -/
structure FQDNSelector where
  matchName : String
  matchPattern : String
  deriving DecidableEq, Repr

/-- `allowedMatchNameChars`, `^[-a-zA-Z0-9_.]+$`. -/
def allowedMatchNameChars (s : String) : Bool :=
  !s.toList.isEmpty && s.toList.all fun c => isDNSChar c || c == '.'

namespace FQDNSelector

/-- `FQDNSelector.IdentityLabel`: the `fqdn` label of the name, or else of the pattern. -/
def identityLabel (s : FQDNSelector) : Label :=
  newLabel (if s.matchName ≠ "" then s.matchName else s.matchPattern) "" labelSourceFQDN

/-- `FQDNSelector.sanitize`. -/
def sanitize (s : FQDNSelector) : Except String Unit :=
  if 0 < s.matchName.utf8ByteSize && 0 < s.matchPattern.utf8ByteSize then
    .error "only one of MatchName or MatchPattern is allowed in an FQDNSelector"
  else if 0 < s.matchName.utf8ByteSize && !allowedMatchNameChars s.matchName then
    .error ("Invalid characters in MatchName: \"" ++ s.matchName ++
      "\". Only 0-9, a-z, A-Z and ., -, _ characters are allowed")
  else do
    let _ ← validate s.matchPattern
    pure ()

/-- `FQDNSelector.ToRegex`: the expression of the name made an FQDN, or else of the sanitized
pattern. -/
def toRegex (s : FQDNSelector) : Except String Regexp :=
  validate (if s.matchName ≠ "" then Dns.fqdn s.matchName else MatchPattern.sanitize s.matchPattern)

/-- A selector that the schema accepts: one of its fields is set (the `OneOf` of the CRD), and
`sanitize` passes. -/
def Valid (s : FQDNSelector) : Prop := (s.matchName ≠ "" ∨ s.matchPattern ≠ "") ∧ s.sanitize.isOk

instance (s : FQDNSelector) : Decidable s.Valid := inferInstanceAs (Decidable (_ ∧ _))

end FQDNSelector

/-! ### The expression of a name

A `MatchName` that passes `sanitize` is made of DNS characters and dots; its FQDN then holds
no space, no star and no upper-case letter, so `ToAnchoredRegexp` writes it out character by
character, and its expression matches that one text and nothing else.  This is why the name
manager may look a name up where it would otherwise match every cached name against it. -/

section Names

/-- A character that `ToAnchoredRegexp` keeps as it is: no space, no star, in lower case. -/
def Plain (c : Char) : Prop := isSpace c = false ∧ c ≠ '*' ∧ c.toLower = c

/-- The letters that `Char.isLower` accepts, by code point. -/
theorem isLower_iff {c : Char} : c.isLower = true ↔ 97 ≤ c.val.toNat ∧ c.val.toNat ≤ 122 := by
  change (decide (c.val ≥ 'a'.val) && decide (c.val ≤ 'z'.val)) = true ↔ _
  have ha : 'a'.val.toNat = 97 := rfl
  have hz : 'z'.val.toNat = 122 := rfl
  simp only [Bool.and_eq_true, decide_eq_true_eq, ge_iff_le, UInt32.le_iff_toNat_le, ha, hz]

/-- `Char.toLower` changes only an upper-case letter, and into a lower-case one. -/
theorem toLower_eq_or_isLower (c : Char) : c.toLower = c ∨ c.toLower.isLower := by
  unfold Char.toLower
  split
  · next h =>
    right
    have hA : 'A'.val.toNat = 65 := rfl
    have hZ : 'Z'.val.toNat = 90 := rfl
    have hd : ('a'.val - 'A'.val).toNat = 32 := rfl
    rw [isLower_iff]
    simp only [ge_iff_le, UInt32.le_iff_toNat_le, UInt32.toNat_add, hA, hZ, hd] at h ⊢
    omega
  · exact .inl rfl

theorem toLower_of_isLower {c : Char} (h : c.isLower = true) : c.toLower = c := by
  unfold Char.toLower
  split
  · next hu =>
    have hA : 'A'.val.toNat = 65 := rfl
    have hZ : 'Z'.val.toNat = 90 := rfl
    rw [isLower_iff] at h
    simp only [ge_iff_le, UInt32.le_iff_toNat_le, hA, hZ] at hu
    omega
  · rfl

theorem toLower_toLower (c : Char) : c.toLower.toLower = c.toLower := by
  rcases toLower_eq_or_isLower c with he | he
  · rw [he]
    exact he
  · exact toLower_of_isLower he

/-- The characters of a valid name, and the lower-case letters, are neither spaces nor stars. -/
theorem not_space_star {c : Char} (h : (isDNSChar c || c == '.') = true ∨ c.isLower = true) :
    isSpace c = false ∧ c ≠ '*' := by
  refine ⟨?_, ?_⟩
  · cases hs : isSpace c
    · rfl
    · simp only [isSpace, Bool.or_eq_true, beq_iff_eq] at hs
      rcases hs with ((((((rfl | rfl) | rfl) | rfl) | rfl) | rfl) | rfl) | rfl <;> revert h <;> decide
  · rintro rfl
    revert h
    decide

theorem plain_toLower {c : Char} (h : (isDNSChar c || c == '.') = true) : Plain c.toLower := by
  have hsp : isSpace c.toLower = false ∧ c.toLower ≠ '*' := by
    rcases toLower_eq_or_isLower c with he | he
    · rw [he]
      exact not_space_star (.inl h)
    · exact not_space_star (.inr he)
  exact ⟨hsp.1, hsp.2, toLower_toLower c⟩

theorem toList_fqdn (s : String) :
    (Dns.fqdn s).toList = s.toList.map Char.toLower ++ (if Dns.isFQDN s then [] else ['.']) := by
  unfold Dns.fqdn toLower
  split <;> simp

/-- The FQDN of a name of DNS characters and dots is plain. -/
theorem fqdn_plain {s : String} (h : ∀ c ∈ s.toList, (isDNSChar c || c == '.') = true) :
    ∀ c ∈ (Dns.fqdn s).toList, Plain c := by
  intro c hc
  rw [toList_fqdn, List.mem_append, List.mem_map] at hc
  rcases hc with ⟨d, hd, rfl⟩ | hc
  · exact plain_toLower (h d hd)
  · split at hc
    · simp at hc
    · rw [List.mem_singleton.mp hc]
      exact ⟨rfl, by decide, rfl⟩

theorem dropWhile_of_forall {p : Char → Bool} {l : List Char} (h : ∀ c ∈ l, p c = false) :
    l.dropWhile p = l := by
  cases l with
  | nil => rfl
  | cons c l => simp [h c List.mem_cons_self]

theorem takeWhile_of_forall {p : Char → Bool} {l : List Char} (h : ∀ c ∈ l, p c = false) :
    l.takeWhile p = [] := by
  cases l with
  | nil => rfl
  | cons c l => simp [h c List.mem_cons_self]

theorem trimSpace_of_forall {s : String} (h : ∀ c ∈ s.toList, isSpace c = false) :
    trimSpace s = s := by
  unfold trimSpace
  rw [dropWhile_of_forall h, dropWhile_of_forall (fun c hc => h c (List.mem_reverse.mp hc)),
    List.reverse_reverse, String.ofList_toList]

theorem toLower_of_forall {s : String} (h : ∀ c ∈ s.toList, c.toLower = c) : toLower s = s := by
  unfold toLower
  rw [List.map_congr_left h, List.map_id', String.ofList_toList]

theorem pieces_of_forall {cs : List Char} (h : ∀ c ∈ cs, c ≠ '*') : pieces cs = cs.map .lit := by
  induction cs with
  | nil => rfl
  | cons c cs ih =>
    have hc : (c == '*') = false := by simpa using h c List.mem_cons_self
    simp only [pieces, hc, List.map_cons, Bool.false_eq_true, if_false]
    rw [ih fun d hd => h d (List.mem_cons_of_mem c hd)]

/-- A plain pattern is written out character by character. -/
theorem anchoredRegexp_plain {p : String} (h : ∀ c ∈ p.toList, Plain c) :
    anchoredRegexp p = .anchored false (p.toList.map .lit) := by
  have hs : trimSpace p = p := trimSpace_of_forall fun c hc => (h c hc).1
  have hl : toLower p = p := toLower_of_forall fun c hc => (h c hc).2.2
  have hstar : ∀ c ∈ p.toList, (c == '*') = false := fun c hc => by simpa using (h c hc).2.1
  have hw : isDNSWildcard p = false := by
    unfold isDNSWildcard
    cases hp : p.toList with
    | nil => rfl
    | cons c cs => simp [hstar c (hp ▸ List.mem_cons_self)]
  unfold anchoredRegexp escapedRegexp
  simp only [hs, hl, hw, Bool.false_eq_true, if_false, dropWhile_of_forall hstar,
    takeWhile_of_forall hstar, List.length_nil]
  rw [pieces_of_forall fun c hc => (h c hc).2.1]
  split <;> simp

/-- Characters one by one match exactly their own text. -/
theorem matchPieces_map_lit (cs s : List Char) : matchPieces (cs.map .lit) s = (s == cs) := by
  induction cs generalizing s with
  | nil => cases s <;> rfl
  | cons c cs ih =>
    cases s with
    | nil => rfl
    | cons d s =>
      simp only [List.map_cons, matchPieces, ih, List.cons_beq_cons, Bool.beq_comm]

/-! ### What the rewrites write

A pattern that passes `prevalidate` is made of DNS characters, dots and stars, and so is its
lower-case form.  The dot rewrite keeps every star and puts `[.]`, which holds no star, for each
dot.  The prefix rewrite sees the escaped dot after the leading stars and puts
`dnsWildcardREGroup`, which holds no star either, in their place.  So the star rewrite meets only
the pattern's own runs of stars, and `compileRegex` reads the text back as the pieces of
`escapedRegexp`. -/

/-- A pattern that `prevalidate` accepts is made of DNS characters, dots and stars. -/
theorem allowed_of_prevalidate {p : String} (h : prevalidate p = .ok ()) :
    ∀ c ∈ p.toList, (isDNSChar c || c == '.' || c == '*') = true := by
  intro c hc
  unfold prevalidate at h
  split at h
  · cases h
  · split at h
    · cases h
    · next hne =>
      have hpos : 0 < p.utf8ByteSize := by
        rw [Nat.pos_iff_ne_zero, ne_eq, String.utf8ByteSize_eq_zero_iff]
        rintro rfl
        simp at hc
      have hall : allowedPatternChars p = true := by simpa [hpos] using hne
      simp only [allowedPatternChars, Bool.and_eq_true, List.all_eq_true] at hall
      exact hall.2 c hc

theorem trimSpace_of_prevalidate {p : String} (h : prevalidate p = .ok ()) : trimSpace p = p := by
  refine trimSpace_of_forall fun c hc => ?_
  have hc' := allowed_of_prevalidate h c hc
  by_cases hs : c = '*'
  · subst hs
    decide
  · exact (not_space_star (.inl (by simpa [hs] using hc'))).1

/-- `ToLower` keeps a pattern's characters among DNS characters, dots and stars. -/
theorem allowed_toLower {c : Char} (h : (isDNSChar c || c == '.' || c == '*') = true) :
    (isDNSChar c.toLower || c.toLower == '.' || c.toLower == '*') = true := by
  rcases toLower_eq_or_isLower c with he | he
  · rw [he]
    exact h
  · have ha : c.toLower.isAlphanum = true := by
      show (c.toLower.isUpper || c.toLower.isLower || c.toLower.isDigit) = true
      simp [he]
    simp [isDNSChar, ha]

/-- The dot rewrite, one character at a time. -/
def escapeDot (c : Char) : List Char := if c = '.' then ['[', '.', ']'] else [c]

theorem replaceAll_dot (l : List Char) : replaceAll '.' "[.]".toList l = l.flatMap escapeDot := by
  rw [show "[.]".toList = ['[', '.', ']'] by decide]
  induction l with
  | nil => rfl
  | cons c l ih =>
    by_cases hc : c = '.'
    · subst hc
      simp [replaceAll, escapeDot, ih]
    · simp [replaceAll, escapeDot, hc, ih]

theorem takeWhile_flatMap_escapeDot (cs : List Char) :
    (cs.flatMap escapeDot).takeWhile (· == '*') = cs.takeWhile (· == '*') := by
  induction cs with
  | nil => rfl
  | cons c cs ih =>
    by_cases hc : c = '*'
    · subst hc
      simp [escapeDot, ih]
    · by_cases hd : c = '.'
      · subst hd
        simp [escapeDot]
      · simp [escapeDot, hc, hd]

theorem dropWhile_flatMap_escapeDot (cs : List Char) :
    (cs.flatMap escapeDot).dropWhile (· == '*') = (cs.dropWhile (· == '*')).flatMap escapeDot := by
  induction cs with
  | nil => rfl
  | cons c cs ih =>
    by_cases hc : c = '*'
    · subst hc
      simp [escapeDot, ih]
    · by_cases hd : c = '.'
      · subst hd
        simp [escapeDot]
      · simp [escapeDot, hc, hd]

/-- The text the star rewrite puts for a run of stars. -/
theorem toList_dnsCharsRun :
    (allowedDNSCharsREGroup ++ "*").toList =
      ['[', '-', 'a', '-', 'z', 'A', '-', 'Z', '0', '-', '9', '_', ']', '*'] := by
  decide

theorem replaceWildcards_append {A : List Char} (hA : ∀ c ∈ A, c ≠ '*') (repl B : List Char) :
    replaceWildcards repl (A ++ B) = A ++ replaceWildcards repl B := by
  induction A with
  | nil => rfl
  | cons a A ih =>
    rw [List.cons_append, replaceWildcards, replaceWildcardsFrom, if_neg (hA a List.mem_cons_self),
      ← replaceWildcards, ih fun c hc => hA c (List.mem_cons_of_mem a hc), List.cons_append]

/-- Inside a run, the stars left go with the run. -/
theorem replaceWildcardsFrom_true (repl cs : List Char) :
    replaceWildcardsFrom repl true cs = replaceWildcards repl (cs.dropWhile (· == '*')) := by
  induction cs with
  | nil => rfl
  | cons c cs ih =>
    by_cases hc : c = '*'
    · subst hc
      simp [replaceWildcardsFrom, ih]
    · have hc' : (c == '*') = false := by simpa using hc
      simp [replaceWildcardsFrom, replaceWildcards, hc, hc']

/-- A run of stars becomes `repl` once. -/
theorem replaceWildcards_star (repl cs : List Char) :
    replaceWildcards repl ('*' :: cs) = repl ++ replaceWildcards repl (cs.dropWhile (· == '*')) := by
  rw [replaceWildcards, replaceWildcardsFrom, if_pos rfl, if_neg Bool.false_ne_true,
    replaceWildcardsFrom_true]

theorem replaceWildcards_lit {c : Char} (hc : c ≠ '*') (repl cs : List Char) :
    replaceWildcards repl (c :: cs) = c :: replaceWildcards repl cs := by
  rw [replaceWildcards, replaceWildcardsFrom, if_neg hc]
  rfl

theorem isRegexpSpecial_of_isDNSChar {c : Char} (h : isDNSChar c = true) :
    isRegexpSpecial c = false := by
  cases hs : isRegexpSpecial c
  · rfl
  · -- a special character is one of fourteen, none of them a DNS character
    have hmem : c ∈ "\\.+*?()|[]\x7b\x7d^$".toList := by
      simpa [isRegexpSpecial] using hs
    simp only [show "\\.+*?()|[]\x7b\x7d^$".toList =
      ['\\', '.', '+', '*', '?', '(', ')', '|', '[', ']', '\x7b', '\x7d', '^', '$'] by decide,
      List.mem_cons, List.not_mem_nil, or_false] at hmem
    rcases hmem with rfl | rfl | rfl | rfl | rfl | rfl | rfl | rfl | rfl | rfl | rfl | rfl | rfl |
      rfl <;> revert h <;> decide

theorem parsePieces_dot (rest : List Char) :
    parsePieces ('[' :: '.' :: ']' :: rest) = (parsePieces rest).map (.lit '.' :: ·) := by
  rw [parsePieces]

theorem parsePieces_dnsChars (rest : List Char) :
    parsePieces ((allowedDNSCharsREGroup ++ "*").toList ++ rest) =
      (parsePieces rest).map (.dnsChars :: ·) := by
  rw [toList_dnsCharsRun]
  rfl

theorem parsePieces_lit {c : Char} (hc : isRegexpSpecial c = false) (rest : List Char) :
    parsePieces (c :: rest) = (parsePieces rest).map (.lit c :: ·) := by
  have hb : c ≠ '[' := by
    rintro rfl
    exact absurd hc (by decide)
  rw [parsePieces.eq_def]
  split
  · rename_i h
    cases h
  · rename_i h
    exact absurd (List.cons.inj h).1 hb
  · rename_i h
    exact absurd (List.cons.inj h).1 hb
  · rename_i d rest' _ _ h
    obtain ⟨rfl, rfl⟩ := List.cons.inj h
    rw [hc, if_neg Bool.false_ne_true]

/-- A run of stars is one `dnsChars`. -/
theorem pieces_star (cs : List Char) :
    pieces ('*' :: cs) = .dnsChars :: pieces (cs.dropWhile (· == '*')) := by
  induction cs with
  | nil => rfl
  | cons c cs ih =>
    by_cases hc : c = '*'
    · subst hc
      rw [pieces, beq_self_eq_true, if_pos rfl, ih, List.dropWhile_cons_of_pos (by decide)]
    · have hc' : (c == '*') = false := by simpa using hc
      simp [pieces, hc']

/-- The escaped text of a pattern of DNS characters, dots and stars, after the star rewrite, reads
back as its pieces; the induction is on the length, since a run of stars goes at once. -/
theorem parsePieces_escape :
    ∀ cs : List Char, (∀ c ∈ cs, (isDNSChar c || c == '.' || c == '*') = true) →
      parsePieces (replaceWildcards (allowedDNSCharsREGroup ++ "*").toList (cs.flatMap escapeDot)) =
        some (pieces cs)
  | [], _ => rfl
  | c :: cs, h => by
    have hcs : ∀ d ∈ cs, (isDNSChar d || d == '.' || d == '*') = true :=
      fun d hd => h d (List.mem_cons_of_mem c hd)
    by_cases hstar : c = '*'
    · -- a run of stars: one `[-a-zA-Z0-9_]*`, and the rest after the run
      subst hstar
      have hrest := parsePieces_escape (cs.dropWhile (· == '*'))
        fun d hd => hcs d ((List.dropWhile_sublist _).subset hd)
      rw [List.flatMap_cons, show escapeDot '*' = ['*'] from rfl, List.singleton_append,
        replaceWildcards_star, dropWhile_flatMap_escapeDot, parsePieces_dnsChars, hrest,
        pieces_star]
      rfl
    · have hsc : (c == '*') = false := by simpa using hstar
      by_cases hdot : c = '.'
      · subst hdot
        rw [List.flatMap_cons, show escapeDot '.' = ['[', '.', ']'] from rfl,
          replaceWildcards_append (by simp), List.cons_append, List.cons_append,
          List.cons_append, List.nil_append, parsePieces_dot, parsePieces_escape cs hcs]
        simp [pieces]
      · have hdns : isDNSChar c = true := by simpa [hstar, hdot] using h c List.mem_cons_self
        rw [List.flatMap_cons, show escapeDot c = [c] by simp [escapeDot, hdot],
          List.singleton_append, replaceWildcards_lit hstar,
          parsePieces_lit (isRegexpSpecial_of_isDNSChar hdns), parsePieces_escape cs hcs]
        simp [pieces, hsc]
termination_by cs => cs.length
decreasing_by
  all_goals simp only [List.length_cons]
  · have := List.length_dropWhile_le (· == '*') cs
    omega
  · omega
  · omega

/-- No escaped text starts as `dnsWildcardREGroup` does, with a parenthesis. -/
theorem isPrefixOf_group_escape {cs : List Char}
    (h : ∀ c ∈ cs, (isDNSChar c || c == '.' || c == '*') = true) :
    dnsWildcardREGroup.toList.isPrefixOf
      (replaceWildcards (allowedDNSCharsREGroup ++ "*").toList (cs.flatMap escapeDot)) = false := by
  have hgroup : dnsWildcardREGroup.toList = '(' :: dnsWildcardREGroup.toList.tail := by decide
  rw [hgroup]
  cases cs with
  | nil => rfl
  | cons c cs =>
    by_cases hstar : c = '*'
    · subst hstar
      rw [List.flatMap_cons, show escapeDot '*' = ['*'] from rfl, List.singleton_append,
        replaceWildcards_star, toList_dnsCharsRun]
      rfl
    · by_cases hdot : c = '.'
      · subst hdot
        rw [List.flatMap_cons, show escapeDot '.' = ['[', '.', ']'] from rfl,
          replaceWildcards_append (by simp)]
        rfl
      · have hdns : isDNSChar c = true := by simpa [hstar, hdot] using h c List.mem_cons_self
        have hc : c ≠ '(' := by
          rintro rfl
          exact absurd hdns (by decide)
        rw [List.flatMap_cons, show escapeDot c = [c] by simp [escapeDot, hdot],
          List.singleton_append, replaceWildcards_lit hstar]
        simp [List.isPrefixOf, Ne.symm hc]

/-- Where the pattern has a subdomain prefix, the prefix rewrite finds the escaped one. -/
theorem replaceSubdomainWildcardPrefix_of_isPrefix {cs rest : List Char}
    (hd : cs.dropWhile (· == '*') = '.' :: rest) (hk : 2 ≤ (cs.takeWhile (· == '*')).length) :
    replaceSubdomainWildcardPrefix dnsWildcardREGroup.toList (cs.flatMap escapeDot) =
      dnsWildcardREGroup.toList ++ rest.flatMap escapeDot := by
  unfold replaceSubdomainWildcardPrefix
  rw [dropWhile_flatMap_escapeDot, takeWhile_flatMap_escapeDot, hd]
  simp only [List.flatMap_cons, escapeDot, ↓reduceIte, List.cons_append, List.nil_append, hk]

/-- Elsewhere it leaves the escaped pattern alone: the first character after the stars is a DNS
character, escaped as itself and not `[`. -/
theorem replaceSubdomainWildcardPrefix_of_not_isPrefix {cs : List Char}
    (h : ∀ c ∈ cs, (isDNSChar c || c == '.' || c == '*') = true)
    (hno : ¬∃ rest, cs.dropWhile (· == '*') = '.' :: rest ∧
      2 ≤ (cs.takeWhile (· == '*')).length) :
    replaceSubdomainWildcardPrefix dnsWildcardREGroup.toList (cs.flatMap escapeDot) =
      cs.flatMap escapeDot := by
  unfold replaceSubdomainWildcardPrefix
  rw [dropWhile_flatMap_escapeDot, takeWhile_flatMap_escapeDot]
  split
  · next rest' heq =>
    rcases hd : cs.dropWhile (· == '*') with _ | ⟨d, r⟩
    · rw [hd] at heq
      cases heq
    · rw [hd] at heq
      by_cases hdot : d = '.'
      · subst hdot
        exact if_neg fun hk => hno ⟨r, hd, hk⟩
      · -- a DNS character after the stars is not `[`
        have hnot : (d == '*') = false := by
          have := List.head_dropWhile_not (· == '*') (l := cs) (by simp [hd])
          simpa [hd] using this
        have hmem : d ∈ cs :=
          (List.dropWhile_sublist (· == '*')).subset (by rw [hd]; exact List.mem_cons_self)
        have hdns : isDNSChar d = true := by simpa [hdot, hnot] using h d hmem
        have hb : d ≠ '[' := by
          rintro rfl
          exact absurd hdns (by decide)
        simp only [List.flatMap_cons, escapeDot, hdot, if_false, List.singleton_append] at heq
        exact absurd (List.cons.inj heq).1 hb
  · rfl

theorem escapedRegexp_of_isPrefix {q : String} {rest : List Char}
    (hd : q.toList.dropWhile (· == '*') = '.' :: rest)
    (hk : 2 ≤ (q.toList.takeWhile (· == '*')).length) :
    escapedRegexp q = .anchored true (pieces rest) := by
  unfold escapedRegexp
  dsimp only
  rw [hd]
  exact if_pos hk

theorem escapedRegexp_of_not_isPrefix {q : String}
    (hno : ¬∃ rest, q.toList.dropWhile (· == '*') = '.' :: rest ∧
      2 ≤ (q.toList.takeWhile (· == '*')).length) :
    escapedRegexp q = .anchored false (pieces q.toList) := by
  unfold escapedRegexp
  dsimp only
  split
  · next rest hd => exact if_neg fun hk => hno ⟨rest, hd, hk⟩
  · rfl

/-- `compileRegex` reads an anchored text whose body is `E`. -/
theorem compileRegex_anchored {E : List Char} (hne : String.ofList ('^' :: E ++ ['$']) ≠ matchAllDNSNames) :
    compileRegex (String.ofList ('^' :: E ++ ['$'])) =
      match parsePieces (if dnsWildcardREGroup.toList.isPrefixOf E then
          E.drop dnsWildcardREGroup.toList.length else E) with
      | some ps => .ok (.anchored (dnsWildcardREGroup.toList.isPrefixOf E) ps)
      | none => .error "unsupported regexp" := by
  unfold compileRegex
  rw [if_neg hne, String.toList_ofList]
  simp only [List.cons_append, List.reverse_append, List.reverse_cons, List.reverse_nil,
    List.nil_append, List.reverse_reverse]
  cases dnsWildcardREGroup.toList.isPrefixOf E <;> rfl

/-- The text of a pattern of DNS characters, dots and stars compiles to `escapedRegexp`: the
prefix rewrite fires exactly where `escapedRegexp` finds a subdomain prefix. -/
theorem compileRegex_escape {q : String}
    (hq : ∀ c ∈ q.toList, (isDNSChar c || c == '.' || c == '*') = true) :
    compileRegex ("^" ++ escapeRegexpCharacters q ++ "$") = .ok (escapedRegexp q) := by
  have htext : "^" ++ escapeRegexpCharacters q ++ "$" =
      String.ofList ('^' :: (escapeRegexpCharacters q).toList ++ ['$']) := by
    simp [String.append_assoc]
  have hne : String.ofList ('^' :: (escapeRegexpCharacters q).toList ++ ['$']) ≠
      matchAllDNSNames := by
    intro h
    have := congrArg (fun s : String => s.toList.head?) h
    simp [matchAllDNSNames] at this
  have hE : (escapeRegexpCharacters q).toList =
      replaceWildcards (allowedDNSCharsREGroup ++ "*").toList
        (replaceSubdomainWildcardPrefix dnsWildcardREGroup.toList (q.toList.flatMap escapeDot)) := by
    rw [escapeRegexpCharacters, String.toList_ofList, replaceAll_dot]
  rw [htext, compileRegex_anchored hne, hE]
  by_cases hpre : ∃ rest, q.toList.dropWhile (· == '*') = '.' :: rest ∧
      2 ≤ (q.toList.takeWhile (· == '*')).length
  · -- the group, then the rest of the pattern after the prefix
    obtain ⟨rest, hd, hk⟩ := hpre
    have hrest : ∀ c ∈ rest, (isDNSChar c || c == '.' || c == '*') = true := fun c hc =>
      hq c ((List.dropWhile_sublist _).subset (by rw [hd]; exact List.mem_cons_of_mem _ hc))
    have hgroup : ∀ c ∈ dnsWildcardREGroup.toList, c ≠ '*' := by
      simp [dnsWildcardREGroup, allowedDNSCharsREGroup]
    rw [replaceSubdomainWildcardPrefix_of_isPrefix hd hk, replaceWildcards_append hgroup,
      escapedRegexp_of_isPrefix hd hk]
    have hpfx : dnsWildcardREGroup.toList.isPrefixOf (dnsWildcardREGroup.toList ++
        replaceWildcards (allowedDNSCharsREGroup ++ "*").toList (rest.flatMap escapeDot)) = true :=
      List.isPrefixOf_iff_prefix.mpr (List.prefix_append _ _)
    rw [if_pos hpfx, List.drop_left, parsePieces_escape rest hrest, hpfx]
  · rw [replaceSubdomainWildcardPrefix_of_not_isPrefix hq hpre, escapedRegexp_of_not_isPrefix hpre,
      isPrefixOf_group_escape hq, if_neg Bool.false_ne_true, parsePieces_escape _ hq]

/-- For a pattern that `prevalidate` accepts, the text of `ToAnchoredRegexp` compiles to the
expression read off the pattern. -/
theorem compileRegex_toAnchoredRegexp {p : String} (hp : prevalidate p = .ok ()) :
    compileRegex (toAnchoredRegexp p) = .ok (anchoredRegexp p) := by
  have hq : ∀ c ∈ (toLower (trimSpace p)).toList, (isDNSChar c || c == '.' || c == '*') = true := by
    intro c hc
    rw [trimSpace_of_prevalidate hp] at hc
    simp only [toLower, String.toList_ofList, List.mem_map] at hc
    obtain ⟨d, hd, rfl⟩ := hc
    exact allowed_toLower (allowed_of_prevalidate hp d hd)
  unfold toAnchoredRegexp anchoredRegexp
  dsimp only
  split
  · rw [compileRegex, if_pos rfl]
  · exact compileRegex_escape hq

theorem validate_eq_ok {p : String} {r : Regexp} (h : validate p = .ok r) :
    r = anchoredRegexp p := by
  unfold validate at h
  cases hp : prevalidate p with
  | error e => rw [hp] at h; cases h
  | ok u =>
    rw [hp] at h
    cases u
    rw [compileRegex_toAnchoredRegexp hp] at h
    exact (Except.ok.inj h).symm

namespace FQDNSelector

theorem allowedMatchNameChars_of_sanitize {s : FQDNSelector} (hs : s.sanitize.isOk = true)
    (hn : s.matchName ≠ "") : allowedMatchNameChars s.matchName = true := by
  have hpos : 0 < s.matchName.utf8ByteSize :=
    Nat.pos_of_ne_zero fun h0 => hn (String.utf8ByteSize_eq_zero_iff.mp h0)
  unfold sanitize at hs
  split at hs
  · cases hs
  · split at hs
    · cases hs
    · rename_i h2
      simpa [hpos] using h2

/-- A selector with a name that passes `sanitize` has no pattern. -/
theorem matchPattern_of_sanitize {s : FQDNSelector} (hs : s.sanitize.isOk = true)
    (hn : s.matchName ≠ "") : s.matchPattern = "" := by
  have hpos : 0 < s.matchName.utf8ByteSize :=
    Nat.pos_of_ne_zero fun h0 => hn (String.utf8ByteSize_eq_zero_iff.mp h0)
  unfold sanitize at hs
  split at hs
  · cases hs
  · rename_i h1
    have h0 : ¬0 < s.matchPattern.utf8ByteSize := by simpa [hpos] using h1
    exact String.utf8ByteSize_eq_zero_iff.mp (by omega)

/-- The expression of a valid `MatchName` matches its FQDN and nothing else. -/
theorem matchString_toRegex_matchName {s : FQDNSelector} (hs : s.sanitize.isOk = true)
    (hn : s.matchName ≠ "") {r : Regexp} (hr : s.toRegex = .ok r) (name : String) :
    r.matchString name = (name == Dns.fqdn s.matchName) := by
  have hallowed := allowedMatchNameChars_of_sanitize hs hn
  have hchars : ∀ c ∈ s.matchName.toList, (isDNSChar c || c == '.') = true := by
    unfold allowedMatchNameChars at hallowed
    rw [Bool.and_eq_true, List.all_eq_true] at hallowed
    exact hallowed.2
  have hre : r = anchoredRegexp (Dns.fqdn s.matchName) := by
    simp only [toRegex, hn, ne_eq, not_false_eq_true, if_true] at hr
    exact validate_eq_ok hr
  rw [hre, anchoredRegexp_plain (fqdn_plain hchars)]
  simp only [Regexp.matchString, matchPieces_map_lit]
  exact Bool.eq_iff_iff.mpr (by simp [String.toList_inj])

/-- The expression of a selector without a name is what the text of its sanitized pattern
compiles to. -/
theorem compileRegex_matchPattern {s : FQDNSelector} (hn : s.matchName = "") {r : Regexp}
    (hr : s.toRegex = .ok r) :
    compileRegex (toAnchoredRegexp (MatchPattern.sanitize s.matchPattern)) = .ok r := by
  simp only [toRegex, hn, ne_eq, not_true_eq_false, if_false] at hr
  unfold validate at hr
  cases hp : prevalidate (MatchPattern.sanitize s.matchPattern) with
  | error e => rw [hp] at hr; cases hr
  | ok u => rw [hp] at hr; simpa only [bind, Except.bind] using hr

end FQDNSelector

end Names

/-- A label made with a source and no value is determined by its key. -/
theorem newLabel_eq_of_value_empty (key source : String) (h : source ≠ "") :
    newLabel key "" source = ⟨(newLabel key "" source).key, "", source⟩ := by
  unfold newLabel
  simp only [h, ↓reduceIte]
  split <;> rfl

theorem FQDNSelector.identityLabel_eq (s : FQDNSelector) :
    s.identityLabel = ⟨s.identityLabel.key, "", labelSourceFQDN⟩ :=
  newLabel_eq_of_value_empty _ _ (by decide)

end Cilium.Fqdn
