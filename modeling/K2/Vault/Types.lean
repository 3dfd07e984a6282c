import K2.Text
import Mathlib.Data.List.Dedup
import Mathlib.Data.List.Sort

/-! # Vault vocabulary

Namespaces, scopes, kinds, deliveries, consumers; a secret's sites and how it is
put into a request; who asks for a value and for what.
-/

namespace K2.Vault

/-- What a value holds. -/
abbrev Bytes := List UInt8

/-! ## Errors -/

structure VaultError where
  /-- What routes and the CLI print. -/
  code : String
  status : Nat
  hint : String
  deriving Repr, DecidableEq

namespace VaultError

def badRequest (code hint : String) : VaultError := ⟨code, 400, hint⟩

def forbidden (code hint : String) : VaultError := ⟨code, 403, hint⟩

def notFound (hint : String) : VaultError := ⟨"not_found", 404, hint⟩

def conflict (code hint : String) : VaultError := ⟨code, 409, hint⟩

def internal (hint : String) : VaultError := ⟨"vault_internal", 500, hint⟩

/-- Ask the owner instead. -/
def ownerConfirmRequired (hint : String) : VaultError :=
  ⟨"vault_owner_confirm_required", 403, hint ++ "; ask the owner to change it in Settings → Vault"⟩

end VaultError

/-! ## Enumerations -/

inductive Namespace where
  /-- K2's own secrets. -/
  | system
  /-- Owner, agent and app secrets, used through grants. -/
  | user
  deriving Repr, DecidableEq

inductive ScopeKind where
  | server | workspace | app | session | engine | person
  deriving Repr, DecidableEq

inductive Kind where
  | generic | password | apiKey | oauthToken | sshKey | tlsKey | dsn | url | loginSlot | appPass
  | engineCred | signingKey | hmacKey
  deriving Repr, DecidableEq

/-- How a consumer receives a secret. -/
inductive Delivery where
  | fetch | proxy | file | env | api | none | agent
  deriving Repr, DecidableEq

inductive SecretStatus where
  | active | disabled | destroyed
  deriving Repr, DecidableEq

inductive VersionState where
  | active | revoked | destroyed
  deriving Repr, DecidableEq

inductive ConsumerKind where
  | workspace | session | publishedService | app | engine | daemon | widget | job | compute
  deriving Repr, DecidableEq

def ScopeKind.text : ScopeKind → String
  | .server => "server"
  | .workspace => "workspace"
  | .app => "app"
  | .session => "session"
  | .engine => "engine"
  | .person => "person"

def ConsumerKind.text : ConsumerKind → String
  | .workspace => "workspace"
  | .session => "session"
  | .publishedService => "published_service"
  | .app => "app"
  | .engine => "engine"
  | .daemon => "daemon"
  | .widget => "widget"
  | .job => "job"
  | .compute => "compute"

namespace Delivery

def text : Delivery → String
  | fetch => "fetch"
  | proxy => "proxy"
  | file => "file"
  | env => "env"
  | api => "api"
  | none => "none"
  | agent => "agent"

def parse (s : String) : Option Delivery :=
  [fetch, proxy, file, env, api, none, agent].find? (·.text = s)

/-- Exposure: fetch and proxy below agent, file, env, api; none below everything. -/
def level : Delivery → Int
  | none => -1
  | fetch | proxy => 0
  | agent => 1
  | file => 2
  | env => 3
  | api => 4

end Delivery

namespace Kind

def defaultDelivery : Kind → Delivery
  | sshKey | tlsKey => .file
  | password | dsn | url => .env
  | _ => .fetch

/-- An agent's new version must keep the old host and port. -/
def carriesDestination : Kind → Bool
  | dsn | url => true
  | _ => false

/-- Pasted values are trimmed of edge whitespace. -/
def trimsOnSave : Kind → Bool
  | apiKey | password | oauthToken => true
  | _ => false

/-- Kinds that get an injection when none is named. -/
def injectsByDefault : Kind → Bool
  | apiKey | oauthToken | generic => true
  | _ => false

end Kind

/-! ## Scopes and consumers -/

/-- A secret's scope; the id is empty for the server. -/
structure Scope where
  kind : ScopeKind
  id : String
  deriving Repr, DecidableEq

namespace Scope

def badId (id : String) : Bool := id = "" || Text.byteLen id > 128 || id.toList.any Text.isControl

def needsId (s : Scope) : VaultError := .badRequest "bad_scope" (s.kind.text ++ " scope needs an id")

def validate (s : Scope) : Except VaultError Unit :=
  match s.kind with
  | .server => if s.id = "" then .ok () else .error (.badRequest "bad_scope" "server scope has no id")
  | .app | .person => .error (.badRequest "scope_reserved" (s.kind.text ++ " scope isn't available yet"))
  | .workspace | .session | .engine => if badId s.id then .error s.needsId else .ok ()

/-- For a write: a person's wallet and an App's push keys are K2's own. -/
def validateFor (s : Scope) (ns : Namespace) : Except VaultError Unit :=
  if (s.kind = .person || s.kind = .app) && ns = .system then
    if badId s.id then .error s.needsId else .ok ()
  else s.validate

end Scope

/-- Who receives a secret; `*` with a workspace is all of them. -/
structure Consumer where
  kind : ConsumerKind
  id : String
  deriving Repr, DecidableEq

namespace Consumer

def label (c : Consumer) : String := c.kind.text ++ ":" ++ c.id

/-- The workspace half of a job consumer's id. -/
def jobWorkspace (c : Consumer) : Option String :=
  if c.kind ≠ .job then none
  else ((Text.splitOnce '/' c.id).map (·.1)).filter (· ≠ "")

def plain (part : String) : Bool :=
  part ≠ "" && Text.byteLen part ≤ 64 &&
    part.toList.all fun c => Text.isAsciiAlphanumeric c || c = '_' || c = '-' || c = '.'

/-- Workspace and node (or `*`) of a well-formed compute consumer. -/
def computeParts (c : Consumer) : Option (String × String) :=
  if c.kind ≠ .compute then none
  else (Text.splitOnce '/' c.id).filter fun p => plain p.1 && (p.2 = "*" || plain p.2)

end Consumer

/-- Names: letters, digits, `_`, `.` and `-`. -/
def validateName (name : String) (userFacing : Bool) : Except VaultError Unit :=
  let most := if userFacing then 64 else 128
  if name = "" ∨ Text.byteLen name > most then
    .error (.badRequest "bad_name" s!"names are 1–{most} characters")
  else if !name.toList.all fun c => Text.isAsciiAlphanumeric c || c = '_' || c = '.' || c = '-' then
    .error (.badRequest "bad_name" "names use letters, digits, _ . -")
  else if name = "." ∨ name = ".." then .error (.badRequest "bad_name" "not a name")
  else .ok ()

/-! ## Env and file names -/

/-- Env names that change how programs load code, find binaries, trust
    certificates, route traffic or talk to K2. -/
def denyExact : List String :=
  ["PATH", "HOME", "SHELL", "USER", "LOGNAME", "TMPDIR", "TMP", "TEMP", "PWD", "IFS", "NODE_OPTIONS",
    "NODE_PATH", "NODE_EXTRA_CA_CERTS", "RUBYOPT", "RUBYLIB", "BASH_ENV", "ENV", "PROMPT_COMMAND",
    "SSL_CERT_FILE", "SSL_CERT_DIR", "REQUESTS_CA_BUNDLE", "CURL_CA_BUNDLE", "NO_PROXY", "EDITOR",
    "VISUAL", "PAGER", "ZDOTDIR", "JAVA_TOOL_OPTIONS", "_JAVA_OPTIONS", "CLASSPATH", "GOFLAGS",
    "CARGO_HOME", "RUSTFLAGS", "XDG_RUNTIME_DIR", "XDG_CONFIG_HOME", "CLAUDE_CONFIG_DIR", "CODEX_HOME",
    "GROK_HOME"]

def denyPrefix : List String :=
  ["LD_", "DYLD_", "PYTHON", "PERL5", "GIT_", "SSH_", "SSL_CERT_", "K2_", "K2SO_", "NPM_CONFIG_"]

def denySuffix : List String := ["_PROXY", "_BASE_URL", "_API_BASE", "_API_BASE_URL"]

def isUpper (c : Char) : Bool := 'A' ≤ c && c ≤ 'Z'

def isDigit (c : Char) : Bool := '0' ≤ c && c ≤ '9'

def validateEnvName (name : String) : Except VaultError Unit :=
  let cs := name.toList
  if !(name ≠ "" && Text.byteLen name ≤ 64 && cs.head?.any (fun c => isUpper c || c = '_') &&
      cs.all fun c => isUpper c || isDigit c || c = '_') then
    .error (.badRequest "bad_env_name"
      "environment names use A-Z, 0-9 and _ and start with a letter or _")
  else if denyExact.contains name || denyPrefix.any (fun p => p.toList.isPrefixOf cs) ||
      denySuffix.any fun s => s.toList.isSuffixOf cs then
    .error (.badRequest "env_name_not_allowed" (name ++ " changes how programs run; pick another name"))
  else .ok ()

/-- The env name of a secret when nothing names one. -/
def defaultEnvName (secretName : String) : String :=
  let cs := secretName.toList.map fun c =>
    if c = '-' || c = '.' then '_'
    else if 'a' ≤ c && c ≤ 'z' then Char.ofNat (c.toNat - 32)
    else c
  String.ofList (if cs.head?.any isDigit then '_' :: cs else cs)

def validateFileName (name : String) : Except VaultError Unit :=
  if name ≠ "" && Text.byteLen name ≤ 64 && name ≠ "." && name ≠ ".." &&
      name.toList.all fun c => Text.isAsciiAlphanumeric c || c = '_' || c = '.' || c = '-' then .ok ()
  else .error (.badRequest "bad_file_name" "file names use letters, digits, _ . - (no paths)")

/-! ## Sites -/

inductive IpAddr where
  | v4 (bits : Nat)
  | v6 (bits : Nat)
  deriving Repr, DecidableEq

/-- IPv4-mapped IPv6 is IPv4. -/
def canonicalIp : IpAddr → IpAddr
  | .v6 bits => if bits / 2 ^ 32 = 0xffff then .v4 (bits % 2 ^ 32) else .v6 bits
  | v4 => v4

inductive HostPat where
  | exact (domain : String)
  /-- One more label under `parent`. -/
  | wildcard (parent : String)
  | ip (ip : IpAddr)
  deriving Repr, DecidableEq

inductive HostKind where
  | domain (domain : String)
  | ip (ip : IpAddr)
  deriving Repr, DecidableEq

structure OriginPattern where
  https : Bool
  host : HostPat
  port : Nat
  deriving Repr, DecidableEq

/-- A concrete origin. -/
structure Origin where
  https : Bool
  host : HostKind
  port : Nat
  deriving Repr, DecidableEq

/-- `str::strip_suffix`, over characters. -/
def stripSuffix (cs suffix : List Char) : Option (List Char) :=
  if suffix.isSuffixOf cs then some (cs.take (cs.length - suffix.length)) else none

/-- Is `d` one label under `parent`? -/
def oneLabelUnder (parent d : String) : Bool :=
  match (stripSuffix d.toList parent.toList).bind (stripSuffix · ['.']) with
  | some head => !head.isEmpty && !head.contains '.'
  | none => false

def OriginPattern.matchesOrigin (p : OriginPattern) (o : Origin) : Bool :=
  p.https = o.https && p.port = o.port &&
    match p.host, o.host with
    | .exact d, .domain d' => d = d'
    | .wildcard parent, .domain d => oneLabelUnder parent d
    | .ip a, .ip b => canonicalIp a = canonicalIp b
    | _, _ => false

/-! ## Injection -/

inductive Dst where
  | header (name : String)
  | query (name : String)
  | basic
  /-- In the request body. -/
  | body
  deriving Repr, DecidableEq

inductive Encoding where
  | hex | base64
  deriving Repr, DecidableEq

/-- How K2 signs a request with the secret. -/
inductive Sign where
  | ovh
  | hmacSha256 (header : String) (encoding : Encoding) (lead : String)
  | hmacSha256Ts (header : String) (tsHeader : Option String) (template valueFmt : String)
      (encoding : Encoding)
  deriving Repr, DecidableEq

/-- Where the value goes in a request, and how it is written. -/
structure Inject where
  dst : Dst
  fmt : String
  allowedDst : List Dst
  allowedFmt : List String
  sign : Option Sign
  deriving Repr, DecidableEq

namespace Inject

def bearer : Inject := ⟨.header "Authorization", "Bearer \x7b\x7d", [], [], none⟩

def usesBody (i : Inject) : Bool := i.dst = .body || i.allowedDst.contains .body

end Inject

/-- What reads texts and values: URLs, IDNA and the public suffix list behind a site,
    key formats, signers, dates. -/
structure Formats where
  /-- `OriginPattern::parse`. -/
  parsePattern : String → Bool → Except VaultError OriginPattern
  showIp : IpAddr → String
  /-- `Inject::validate`. -/
  validateInject : Inject → Except VaultError Unit
  /-- The injection of a recognised key format. -/
  detect : Bytes → Option Inject
  /-- `Sign::check_value`. -/
  checkSigned : Sign → Bytes → Except VaultError Unit
  /-- Does the value read as an ssh key? -/
  checkSshKey : Bytes → Except VaultError Unit
  /-- Is it one the ssh agent can serve? -/
  checkAgentKey : Bytes → Except VaultError Unit
  /-- The host and port a DSN or URL points at. -/
  destinationOf : Bytes → Option (String × Nat)
  /-- RFC 3339, in nanoseconds. -/
  parseTs : String → Option Int
  ts : Int → String

namespace Formats

/-- Formats that know the sites listed and no key format, at one moment. -/
def knowing (sites : List (String × OriginPattern)) : Formats where
  parsePattern s _ := match sites.lookup s with
    | some p => .ok p
    | none => .error (.badRequest "bad_host" "not a site")
  showIp _ := ""
  validateInject _ := .ok ()
  detect _ := none
  checkSigned _ _ := .ok ()
  checkSshKey _ := .ok ()
  checkAgentKey _ := .ok ()
  destinationOf _ := none
  parseTs _ := none
  ts _ := "1970-01-01T00:00:00Z"

variable (fm : Formats)

def showHostIp (ip : IpAddr) : String :=
  match ip with
  | .v6 _ => "[" ++ fm.showIp ip ++ "]"
  | .v4 _ => fm.showIp ip

def renderOrigin (https : Bool) (host : String) (port : Nat) : String :=
  (if https then "https" else "http") ++ "://" ++ host ++ ":" ++ toString port

/-- `OriginPattern::render`. -/
def render (p : OriginPattern) : String :=
  renderOrigin p.https (match p.host with
    | .exact d => d
    | .wildcard parent => "*." ++ parent
    | .ip ip => fm.showHostIp ip) p.port

/-- `Origin::render`. -/
def renderTarget (o : Origin) : String :=
  renderOrigin o.https (match o.host with
    | .domain d => d
    | .ip ip => fm.showHostIp ip) o.port

/-- Normalise a list: each once, sorted. -/
def normaliseList (hosts : List String) (allowWildcard : Bool) : Except VaultError (List String) :=
  (hosts.mapM fun h => (fm.parsePattern h allowWildcard).map fm.render).map fun out =>
    out.eraseDups.insertionSort (· ≤ ·)

def parseStored (hosts : List String) : List OriginPattern :=
  hosts.filterMap fun h => (fm.parsePattern h true).toOption

/-- Is a time past? One that doesn't parse isn't. -/
def past (now : Int) (expiresAt : Option String) : Bool :=
  match expiresAt.bind fm.parseTs with
  | some x => x < now
  | none => false

end Formats

/-- Has `new` a host that `old` hasn't? -/
def widens (old new : List String) : Bool := new.any fun h => !old.contains h

def Formats.checkHost (fm : Formats) (o : Origin) (allowed : List OriginPattern) : Except VaultError Unit :=
  if allowed.isEmpty then .error (.forbidden "no_allowed_hosts"
    "this secret isn't bound to any site; add one in Settings → Vault")
  else if allowed.any (·.matchesOrigin o) then .ok ()
  else .error (.forbidden "host_not_allowed"
    ("this secret may only be sent to its allowed sites, not " ++ fm.renderTarget o))

/-! ## Secrets and grants -/

/-- Everything about a secret except its value. -/
structure SecretMeta where
  id : String
  ns : Namespace
  scope : Scope
  name : String
  kind : Kind
  provider : String
  hosts : List String
  inject : Option Inject
  defaultDelivery : Delivery
  deliveryCeiling : Delivery
  origin : String
  createdBy : String
  humanGiven : Bool
  latestVersion : Nat
  status : SecretStatus
  rotateEveryDays : Option Nat
  description : String
  expiresAt : Option String
  createdAt : String
  updatedAt : String
  deriving Repr, DecidableEq

structure VersionRow where
  secretId : String
  version : Nat
  value : Bytes
  createdAt : String
  createdBy : String
  state : VersionState
  revokedAt : Option String
  deriving Repr, DecidableEq

def VersionRow.pk (r : VersionRow) : String × Nat := (r.secretId, r.version)

structure Grant where
  id : String
  secretId : String
  /-- None is the latest. -/
  versionSelector : Option Nat
  consumer : Consumer
  delivery : Delivery
  envName : Option String
  fileName : Option String
  hostsNarrowed : Option (List String)
  grantedBy : String
  grantedAt : String
  expiresAt : Option String
  deriving Repr, DecidableEq

inductive Selector where
  | id (id : String)
  | name (ns : Namespace) (scope : Scope) (name : String)
  deriving Repr, DecidableEq

inductive PutMode where
  | create | rotate | upsert
  deriving Repr, DecidableEq

structure PutRequest where
  ns : Namespace
  scope : Scope
  name : String
  kind : Kind
  hosts : List String
  inject : Option Inject
  defaultDelivery : Option Delivery
  deliveryCeiling : Option Delivery
  origin : String
  description : String
  rotateEveryDays : Option Nat
  expiresAt : Option String
  mode : PutMode
  idempotent : Bool
  humanGivenOverride : Option Bool
  /-- A copy another vault already accepted. -/
  landedCopy : Bool
  noInject : Bool
  deriving Repr

/-- A new server secret of a kind, with its defaults. -/
def PutRequest.server (name : String) (kind : Kind) (hosts : List String) : PutRequest where
  ns := .user
  scope := ⟨.server, ""⟩
  name := name
  kind := kind
  hosts := hosts
  inject := none
  defaultDelivery := none
  deliveryCeiling := none
  origin := ""
  description := ""
  rotateEveryDays := none
  expiresAt := none
  mode := .upsert
  idempotent := false
  humanGivenOverride := none
  landedCopy := false
  noInject := false

structure PutOutcome where
  info : SecretMeta
  created : Bool
  newVersion : Bool
  trimmed : Bool
  ownerNotice : Bool
  deriving Repr

structure PolicyPatch where
  hosts : Option (List String)
  addHosts : List String
  removeHosts : List String
  defaultDelivery : Option Delivery
  deliveryCeiling : Option Delivery
  inject : Option Inject
  description : Option String
  /-- 0 clears the reminder. -/
  rotateEveryDays : Option Nat
  deriving Repr

def PolicyPatch.nothing : PolicyPatch :=
  ⟨none, [], [], none, none, none, none, none⟩

structure GrantRequest where
  selector : Selector
  consumer : Consumer
  delivery : Delivery
  envName : Option String
  fileName : Option String
  hostsNarrowed : Option (List String)
  expiresAt : Option String
  version : Option Nat
  deriving Repr

/-! ## Requests for a value -/

inductive Requester where
  | session (workspaceId : String) (sessionId : Option String)
  | publishedService (id workspaceId : String)
  | engine (name : String)
  | system (name : String)
  | source (id : String)
  | job (workspaceId jobId name : String)
  | compute (workspaceId nodeId jobId : String) (generation : Nat) (ownedNode : Bool)
  deriving Repr, DecidableEq

/-- Why a value leaves the store. -/
inductive Use where
  | fetch (origin : Origin)
  | proxy (origin : Origin)
  | file
  | env
  | api
  | system
  | agent
  deriving Repr, DecidableEq

namespace Use

def needs : Use → Delivery
  | fetch _ => .fetch
  | proxy _ => .proxy
  | file => .file
  | env => .env
  | api => .api
  | system => .none
  | agent => .agent

/-- The site of a request that carries the value. -/
def target : Use → Option Origin
  | fetch o | proxy o => some o
  | _ => none

end Use

/-- A value, and what the consumer may do with it. -/
structure Resolved where
  value : Bytes
  info : SecretMeta
  version : Nat
  delivery : Delivery
  envName : Option String
  fileName : Option String
  inject : Inject
  deriving Repr

end K2.Vault
