import K2.Json
import K2.Lib.PublicSuffix
import K2.Vault.Types

/-! # Host patterns of secrets

A pattern is an exact host, an address, or `*.parent`. A wildcard is accepted when
`parent` is a registrable domain or below one, by the embedded public suffix list and
K2's own shared suffixes. -/

namespace K2.Vault

open PublicSuffix

inductive UrlHost where
  | domain (domain : String)
  | ipv4 (bits : Nat)
  | ipv6 (bits : Nat)
  deriving Repr, DecidableEq

/-- A parsed URL, as far as its origin goes. -/
structure Url where
  scheme : String
  username : String
  password : Option String
  host : Option UrlHost
  portOrKnownDefault : Option Nat
  deriving Repr, DecidableEq

/-- What the `idna` and `url` crates and `str::to_lowercase` answer. -/
structure Names where
  domainToAscii : String → Option String
  domainToAsciiStrict : String → Option String
  toLowercase : String → String
  parseUrl : String → Option Url

/-! ## The public suffix list -/

/-- Every customer box lives under these. -/
def k2SharedSuffixes : List String := ["k2.dev", "app.k2.dev"]

structure Psl where
  rules : List String
  wildcards : List String
  exceptions : List String

namespace Psl

def insertRule (names : Names) (p : Psl) (line : List Char) : Psl :=
  let ascii (body : List Char) :=
    (names.domainToAscii (String.ofList body)).getD (names.toLowercase (String.ofList body))
  match (Text.wordsFrom [] line).headD [] with
  | [] => p
  | '/' :: '/' :: _ => p
  | '!' :: body => { p with exceptions := ascii body :: p.exceptions }
  | '*' :: '.' :: body => { p with wildcards := ascii body :: p.wildcards }
  | rule => { p with rules := ascii rule :: p.rules }

end Psl

/-- The list in `text`, and K2's own suffixes. -/
def psl (names : Names) (text : String) : Psl :=
  let p := (text.toList.splitOn '\n').foldl (Psl.insertRule names) ⟨[], [], []⟩
  { p with rules := k2SharedSuffixes ++ p.rules }

def labels (domain : String) : List (List Char) := domain.toList.splitOn '.'

/-- `labels.join(".")`. -/
def joined (labels : List (List Char)) : String := String.ofList (List.intercalate ['.'] labels)

namespace Psl

/-- Does the rule for the labels from `i` on, or the wildcard rule beside it, match? -/
def matchesAt (p : Psl) (labels : List (List Char)) (i : Nat) : Bool :=
  p.rules.contains (joined (labels.drop i)) ||
    i + 1 < labels.length && p.wildcards.contains (joined (labels.drop (i + 1)))

/-- How many of the labels of `domain` are its public suffix. -/
def publicSuffixLabels (p : Psl) (domain : String) : Nat :=
  let ls := labels domain
  match (List.range ls.length).find? fun i => p.exceptions.contains (joined (ls.drop i)) with
  | some i => ls.length - i - 1
  | none => (List.range ls.length).foldl
      (fun best i => if p.matchesAt ls i then max best (ls.length - i) else best) 1

def isRegistrableOrBelow (p : Psl) (domain : String) : Bool :=
  (labels domain).length > p.publicSuffixLabels domain

end Psl

/-! ## Parsing a pattern -/

def badHost (hint : String) : VaultError := .badRequest "bad_host" hint

def validLabel (label : List Char) : Bool :=
  !label.isEmpty && Text.byteLen (String.ofList label) ≤ 63 &&
    label.all (fun c => Text.isAsciiAlphanumeric c || c = '-') && label.head? ≠ some '-' && label.getLast? ≠ some '-'

def normaliseDomain (names : Names) (domain : String) : Except VaultError String :=
  let d := String.ofList ((stripSuffix domain.toList ['.']).getD domain.toList)
  if d = "" then .error (badHost "empty host")
  else match names.domainToAsciiStrict d with
    | none => .error (badHost ("not a valid host name: " ++ d))
    | some ascii =>
        if 253 < Text.byteLen ascii then .error (badHost "host name too long")
        else if (labels ascii).all validLabel then .ok ascii
        else .error (badHost ("not a valid host name: " ++ d))

def schemeHttps : String → Except VaultError Bool
  | "https" => .ok true
  | "http" => .ok false
  | other => .error (badHost ("scheme " ++ other ++ " isn't allowed (http or https)"))

/-- The origin of a URL; no user name, no password, `http` or `https`. -/
def Origin.fromUrl (names : Names) (u : Url) : Except VaultError Origin := do
  let https ← schemeHttps u.scheme
  if u.username ≠ "" ∨ u.password.isSome then
    .error (badHost "URLs with a user name or password aren't allowed")
  else
    let host ← match u.host with
      | some (.domain d) => (normaliseDomain names d).map HostKind.domain
      | some (.ipv4 bits) => .ok (HostKind.ip (.v4 bits))
      | some (.ipv6 bits) => .ok (HostKind.ip (canonicalIp (.v6 bits)))
      | none => .error (badHost "URL has no host")
    match u.portOrKnownDefault with
    | some port => pure ⟨https, host, port⟩
    | none => .error (badHost "no port")

/-- `str::parse::<u16>`. -/
def parseU16 (cs : List Char) : Option Nat :=
  let digits := if cs.head? = some '+' then cs.tail else cs
  let n := digits.foldl (fun n c => n * 10 + (c.toNat - '0'.toNat)) 0
  if digits ≠ [] ∧ digits.all isDigit ∧ n < 2 ^ 16 then some n else none

/-- The host and the port, which comes after the last colon. -/
def splitPort (cs : List Char) (https : Bool) : Except VaultError (List Char × Nat) :=
  if ':' ∈ cs then
    match parseU16 (cs.rtakeWhile (· ≠ ':')) with
    | some port => if port = 0 then .error (badHost "bad port") else .ok ((cs.rdropWhile (· ≠ ':')).dropLast, port)
    | none => .error (badHost "bad port")
  else .ok (cs, if https then 443 else 80)

/-- `str::split_once("://")`, over characters. -/
def splitScheme : List Char → Option (List Char × List Char)
  | ':' :: '/' :: '/' :: rest => some ([], rest)
  | c :: rest => (splitScheme rest).map fun p => (c :: p.1, p.2)
  | [] => none

namespace OriginPattern

def parseWildcard (names : Names) (p : Psl) (https : Bool) (parent : List Char) : Except VaultError OriginPattern := do
  let (hostPart, port) ← splitPort parent https
  let parent ← normaliseDomain names (String.ofList hostPart)
  if p.isRegistrableOrBelow parent then pure ⟨https, .wildcard parent, port⟩
  else .error (.badRequest "wildcard_public_suffix" ("*." ++ parent ++
    " would match other people's sites (each one is a different owner); enter the exact host"))

/-- The URL parser canonicalises addresses and IDNA. -/
def parseExact (names : Names) (https : Bool) (authority : List Char) : Except VaultError OriginPattern := do
  let text := String.ofList authority
  let u ← okOr (names.parseUrl ((if https then "https" else "http") ++ "://" ++ text ++ "/"))
    (badHost ("not a valid host: " ++ text))
  let o ← Origin.fromUrl names u
  if o.port = 0 then .error (badHost "bad port")
  else pure ⟨o.https, match o.host with | .domain d => .exact d | .ip ip => .ip ip, o.port⟩

/-- `rest` is what comes after the scheme; wildcards are for people, not agents. -/
def parseRest (names : Names) (p : Psl) (https : Bool) (rest : List Char) (allowWildcard : Bool) :
    Except VaultError OriginPattern :=
  let authority := rest.takeWhile fun c => c ≠ '/' ∧ c ≠ '?' ∧ c ≠ '#'
  let after := rest.drop authority.length
  if '@' ∈ authority then .error (badHost "hosts can't include a user name or password")
  else if after ≠ [] ∧ after ≠ ['/'] then .error (badHost "a host is just scheme://host[:port], no path")
  else match authority with
    | '*' :: '.' :: parent =>
        if allowWildcard then parseWildcard names p https parent
        else .error (.badRequest "wildcard_not_allowed"
          "wildcards can only be added by a person in Settings → Vault; use the exact host")
    | _ =>
        if '*' ∈ authority then .error (badHost "a wildcard is only allowed as the first label (*.example.com)")
        else parseExact names https authority

def parse (names : Names) (p : Psl) (s : String) (allowWildcard : Bool) : Except VaultError OriginPattern :=
  let cs := (Text.trim s).toList
  if cs = [] then .error (badHost "empty host")
  else do
    -- without a scheme the source puts `https://` in front
    let (scheme, rest) := (splitScheme cs).getD ("https".toList, cs)
    let https ← schemeHttps (Text.toAsciiLowercase (String.ofList scheme))
    parseRest names p https rest allowWildcard

end OriginPattern

/-! ## The list against its meaning -/

namespace Psl

/-- A rule is the labels whose joined text the list holds. -/
def asRules (p : Psl) : Rules (List Char) where
  plain := {ls | ls ≠ [] ∧ joined ls ∈ p.rules}
  wildcard := {ls | ls ≠ [] ∧ joined ls ∈ p.wildcards}
  exception := {ls | ls ≠ [] ∧ joined ls ∈ p.exceptions}

end Psl

theorem drop_of_suffix {α : Type} {r d : List α} (inside : r <:+ d) : d.drop (d.length - r.length) = r :=
  (List.suffix_iff_eq_drop.mp inside).symm

theorem excepted_iff {p : Psl} {ls : List (List Char)} {n : Nat} :
    p.asRules.Excepted ls n ↔ ∃ i < ls.length, n = ls.length - i ∧ joined (ls.drop i) ∈ p.exceptions := by
  constructor
  · rintro ⟨r, ⟨nonempty, rule⟩, inside, rfl⟩
    have := inside.length_le
    have := List.length_pos_of_ne_nil nonempty
    exact ⟨ls.length - r.length, by omega, by omega, (drop_of_suffix inside).symm ▸ rule⟩
  · rintro ⟨i, inside, rfl, rule⟩
    exact ⟨ls.drop i, ⟨List.ne_nil_of_length_pos (by rw [List.length_drop]; omega), rule⟩, List.drop_suffix i ls,
      List.length_drop⟩

theorem matches_iff {p : Psl} {ls : List (List Char)} {n : Nat} :
    p.asRules.Matches ls n ↔ ∃ i < ls.length, n = ls.length - i ∧ p.matchesAt ls i = true := by
  have rule_at {i : Nat} (inside : i < ls.length) :
      (ls.drop i ∈ p.asRules.plain ∨ ls.drop i ≠ [] ∧ (ls.drop i).tail ∈ p.asRules.wildcard) ↔ p.matchesAt ls i = true := by
    have here : ls.drop i ≠ [] := List.ne_nil_of_length_pos (by rw [List.length_drop]; omega)
    simp [Psl.asRules, Psl.matchesAt, here, List.tail_drop]
  constructor
  · rintro ⟨r, inside, rfl, rule⟩
    have := inside.length_le
    have nonempty : r ≠ [] := rule.elim (fun plain => plain.1) And.left
    have := List.length_pos_of_ne_nil nonempty
    refine ⟨ls.length - r.length, by omega, by omega, (rule_at (by omega)).mp ?_⟩
    rwa [drop_of_suffix inside]
  · rintro ⟨i, inside, rfl, rule⟩
    exact ⟨ls.drop i, List.drop_suffix i ls, List.length_drop, (rule_at inside).mpr rule⟩

/-- The largest `f i` of the chosen `i`, or where the fold began. -/
theorem foldl_max_spec (chosen : Nat → Bool) (f : Nat → Nat) (is : List Nat) (best : Nat) :
    let last := is.foldl (fun best i => if chosen i then max best (f i) else best) best
    best ≤ last ∧ (last = best ∨ ∃ i ∈ is, chosen i = true ∧ last = f i) ∧
      ∀ i ∈ is, chosen i = true → f i ≤ last := by
  induction is generalizing best with
  | nil => exact ⟨Nat.le_refl best, .inl rfl, fun _ mem => absurd mem List.not_mem_nil⟩
  | cons i is ih =>
    rw [List.foldl_cons]
    obtain ⟨up, one, all⟩ := ih (if chosen i then max best (f i) else best)
    have step : best ≤ (if chosen i then max best (f i) else best) ∧
        (chosen i = true → f i ≤ if chosen i then max best (f i) else best) := by
      split
      · exact ⟨Nat.le_max_left _ _, fun _ => Nat.le_max_right _ _⟩
      · exact ⟨Nat.le_refl _, fun yes => absurd yes ‹_›⟩
    refine ⟨step.1.trans up, ?_, ?_⟩
    · rcases one with same | ⟨j, mem, chosen_j, last⟩
      · rw [same]
        split
        · rcases Nat.le_total best (f i) with le | ge
          · exact .inr ⟨i, List.mem_cons_self, ‹_›, Nat.max_eq_right le⟩
          · exact .inl (Nat.max_eq_left ge)
        · exact .inl rfl
      · exact .inr ⟨j, List.mem_cons_of_mem i mem, chosen_j, last⟩
    · intro j mem yes
      rcases List.mem_cons.mp mem with rfl | later
      · exact (step.2 yes).trans up
      · exact all j later yes

theorem labels_ne_nil (domain : String) : labels domain ≠ [] := List.splitOn_ne_nil _ _

/-- The count the source computes is the length of the public suffix. -/
theorem publicSuffixLabels_isSuffix (p : Psl) (domain : String) :
    p.asRules.IsSuffix (labels domain) (p.publicSuffixLabels domain) := by
  have nonempty := List.length_pos_of_ne_nil (labels_ne_nil domain)
  cases found : (List.range (labels domain).length).find? fun i => p.exceptions.contains (joined ((labels domain).drop i)) with
  | some i =>
    obtain ⟨rule, inside, before⟩ := List.find?_range_eq_some.mp found
    have inside := List.mem_range.mp inside
    simp only [Psl.publicSuffixLabels, found]
    refine .inl ⟨excepted_iff.mpr ⟨i, inside, by omega, by simpa using rule⟩, fun n other => ?_⟩
    obtain ⟨j, inside', rfl, rule'⟩ := excepted_iff.mp other
    have : ¬j < i := fun lt => by simpa [rule'] using before j lt
    omega
  | none =>
    have none := List.find?_range_eq_none.mp found
    simp only [Psl.publicSuffixLabels, found]
    obtain ⟨pos, one, most⟩ := foldl_max_spec (p.matchesAt (labels domain)) ((labels domain).length - ·)
      (List.range (labels domain).length) 1
    refine .inr ⟨fun n other => ?_, ?_, pos, fun n other => ?_⟩
    · obtain ⟨j, inside, -, rule⟩ := excepted_iff.mp other
      simpa [rule] using none j inside
    · refine one.imp_right fun ⟨i, mem, chosen, last⟩ => ?_
      exact matches_iff.mpr ⟨i, List.mem_range.mp mem, last, chosen⟩
    · obtain ⟨i, inside, rfl, chosen⟩ := matches_iff.mp other
      exact most i (List.mem_range.mpr inside) chosen

/-! ## Who a wildcard reaches -/

theorem stripSuffix_eq_some {cs suffix head : List Char} : stripSuffix cs suffix = some head ↔ head ++ suffix = cs := by
  unfold stripSuffix
  split
  · obtain ⟨front, rfl⟩ := List.isSuffixOf_iff_suffix.mp ‹_›
    simp [eq_comm]
  · refine ⟨(fun same => by cases same), fun whole => absurd (List.isSuffixOf_iff_suffix.mpr ⟨head, whole⟩) ‹_›⟩

theorem oneLabelUnder_iff {parent d : String} :
    oneLabelUnder parent d = true ↔ ∃ x : List Char, x ≠ [] ∧ '.' ∉ x ∧ d.toList = x ++ '.' :: parent.toList := by
  have under (x : List Char) : (stripSuffix d.toList parent.toList).bind (stripSuffix · ['.']) = some x ↔
      d.toList = x ++ '.' :: parent.toList := by
    rw [Option.bind_eq_some_iff]
    constructor
    · rintro ⟨front, whole, dot⟩
      rw [← stripSuffix_eq_some.mp whole, ← stripSuffix_eq_some.mp dot, List.append_assoc, List.singleton_append]
    · intro whole
      refine ⟨x ++ ['.'], stripSuffix_eq_some.mpr ?_, stripSuffix_eq_some.mpr rfl⟩
      rw [whole, List.append_assoc, List.singleton_append]
  cases found : (stripSuffix d.toList parent.toList).bind (stripSuffix · ['.']) with
  | none =>
    simp only [oneLabelUnder, found, Bool.false_eq_true, false_iff]
    rintro ⟨x, -, -, whole⟩
    rw [(under x).mpr whole] at found
    cases found
  | some head =>
    have whole := (under head).mp found
    simp only [oneLabelUnder, found, Bool.and_eq_true, Bool.not_eq_true', List.isEmpty_eq_false_iff]
    constructor
    · rintro ⟨nonempty, dotless⟩
      exact ⟨head, nonempty, by simpa using dotless, whole⟩
    · rintro ⟨x, nonempty, dotless, same⟩
      obtain rfl : head = x := List.append_cancel_right (whole.symm.trans same)
      exact ⟨nonempty, by simpa using dotless⟩

theorem labels_under {parent d : String} {x : List Char} (dotless : '.' ∉ x)
    (whole : d.toList = x ++ '.' :: parent.toList) : labels d = x :: labels parent := by
  rw [labels, whole, List.splitOn_append_cons_self_of_not_mem dotless]
  rfl

theorem parseWildcard_accepts {names : Names} {p : Psl} {https : Bool} {cs : List Char} {pat : OriginPattern}
    {parent : String} (accepted : OriginPattern.parseWildcard names p https cs = .ok pat)
    (wild : pat.host = .wildcard parent) : p.isRegistrableOrBelow parent = true := by
  obtain ⟨⟨hostPart, port⟩, -, accepted⟩ := bind_eq_ok.mp accepted
  obtain ⟨name, -, accepted⟩ := bind_eq_ok.mp accepted
  split at accepted
  · cases accepted
    cases wild
    assumption
  · cases accepted

theorem parseExact_not_wildcard {names : Names} {https : Bool} {cs : List Char} {pat : OriginPattern} {parent : String}
    (accepted : OriginPattern.parseExact names https cs = .ok pat) : pat.host ≠ .wildcard parent := by
  obtain ⟨u, -, accepted⟩ := bind_eq_ok.mp accepted
  obtain ⟨o, -, accepted⟩ := bind_eq_ok.mp accepted
  split at accepted
  · cases accepted
  · cases accepted
    intro wild
    cases kind : o.host <;> simp [kind] at wild

theorem parse_wildcard {names : Names} {p : Psl} {s : String} {allowWildcard : Bool} {pat : OriginPattern} {parent : String}
    (accepted : OriginPattern.parse names p s allowWildcard = .ok pat) (wild : pat.host = .wildcard parent) :
    p.isRegistrableOrBelow parent = true := by
  simp only [OriginPattern.parse] at accepted
  split at accepted
  · cases accepted
  obtain ⟨https, -, accepted⟩ := bind_eq_ok.mp accepted
  simp only [OriginPattern.parseRest] at accepted
  split at accepted
  · cases accepted
  split at accepted
  · cases accepted
  split at accepted
  · split at accepted
    · exact parseWildcard_accepts accepted wild
    · cases accepted
  · split at accepted
    · cases accepted
    · exact absurd wild (parseExact_not_wildcard accepted)

/-- One owner: what the pattern matches is registered where `parent` is, and is no public suffix. -/
def OneOwner (R : Rules (List Char)) (pat : OriginPattern) (parent : String) : Prop :=
  ∀ o, pat.matchesOrigin o = true → ∃ d, o.host = .domain d ∧ ¬R.IsSuffix (labels d) (labels d).length ∧
    ∃ r, R.Registrable (labels parent) r ∧ R.Registrable (labels d) r

theorem oneOwner_iff {names : Names} {text s : String} {allowWildcard : Bool} {pat : OriginPattern} {parent : String}
    (accepted : OriginPattern.parse names (psl names text) s allowWildcard = .ok pat) (wild : pat.host = .wildcard parent) :
    OneOwner (psl names text).asRules pat parent ↔
      ∀ x : List Char, x ≠ [] → '.' ∉ x → (psl names text).asRules.Shared (labels parent) x := by
  have suffix := publicSuffixLabels_isSuffix (psl names text) parent
  have below : (psl names text).publicSuffixLabels parent < (labels parent).length :=
    of_decide_eq_true (parse_wildcard accepted wild)
  constructor
  · intro one x nonempty dotless
    have whole : (String.ofList (x ++ '.' :: parent.toList)).toList = x ++ '.' :: parent.toList := String.toList_ofList
    obtain ⟨d, same, -, owner⟩ := one ⟨pat.https, .domain (String.ofList (x ++ '.' :: parent.toList)), pat.port⟩ (by
      simpa [OriginPattern.matchesOrigin, wild] using oneLabelUnder_iff.mpr ⟨x, nonempty, dotless, whole⟩)
    cases same
    rw [labels_under dotless whole] at owner
    exact (Rules.registrable_cons_iff suffix below).mp owner
  · intro shared o matched
    cases kind : o.host with
    | ip bits => simp [OriginPattern.matchesOrigin, wild, kind] at matched
    | domain d =>
      obtain ⟨x, nonempty, dotless, whole⟩ := oneLabelUnder_iff.mp (show oneLabelUnder parent d = true by
        exact (by simpa [OriginPattern.matchesOrigin, wild, kind] using matched :
          (pat.https = o.https ∧ pat.port = o.port) ∧ oneLabelUnder parent d = true).2)
      have owner := (Rules.registrable_cons_iff suffix below).mpr (shared x nonempty dotless)
      rw [← labels_under dotless whole] at owner
      refine ⟨d, rfl, ?_, owner⟩
      obtain ⟨-, -, k, own, less, -⟩ := owner
      exact fun whole => absurd (whole.unique own) (Nat.ne_of_gt less)

/-- The crates on ASCII names. -/
def asciiNames : Names where
  domainToAscii d := some (Text.toAsciiLowercase d)
  domainToAsciiStrict d := some (Text.toAsciiLowercase d)
  toLowercase := Text.toAsciiLowercase
  parseUrl _ := none

/-- A list whose rules name no site below `stripe.com`. -/
theorem oneOwner_iff_stripe :
    OneOwner (psl asciiNames "com\n*.aivencloud.com\n").asRules ⟨true, .wildcard "stripe.com", 443⟩ "stripe.com" ↔
      ∀ x : List Char, x ≠ [] → '.' ∉ x →
        (psl asciiNames "com\n*.aivencloud.com\n").asRules.Shared (labels "stripe.com") x :=
  oneOwner_iff (show OriginPattern.parse asciiNames (psl asciiNames "com\n*.aivencloud.com\n") "*.stripe.com" true =
    .ok ⟨true, .wildcard "stripe.com", 443⟩ by rfl) rfl

/-- Every name below `aivencloud.com` is a public suffix, and its wildcard is accepted. -/
theorem aivencloud_not_oneOwner :
    ¬∀ (names : Names) (text s : String) (allowWildcard : Bool) (pat : OriginPattern) (parent : String),
      OriginPattern.parse names (psl names text) s allowWildcard = .ok pat → pat.host = .wildcard parent →
        OneOwner (psl names text).asRules pat parent := by
  intro one
  have accepted : OriginPattern.parse asciiNames (psl asciiNames "com\n*.aivencloud.com\n") "*.aivencloud.com" true =
      .ok ⟨true, .wildcard "aivencloud.com", 443⟩ := by rfl
  obtain ⟨d, same, owned, -⟩ := one _ _ _ _ _ _ accepted rfl ⟨true, .domain "a.aivencloud.com", 443⟩ (by decide +kernel)
  cases same
  exact owned (publicSuffixLabels_isSuffix (psl asciiNames "com\n*.aivencloud.com\n") "a.aivencloud.com")

end K2.Vault
