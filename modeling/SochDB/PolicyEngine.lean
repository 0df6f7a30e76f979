import SochDB.Library.KeyedMaps
import SochDB.Library.LittleEndian
import SochDB.Library.Utf8

/-!
Policies in front of a connection. A policy has a glob pattern, which is turned into a regular
expression, and a handler. The expression engine, the refill of the rate limiters and the
connection are parameters; of the connection the calls that were made are kept.
-/
namespace Policies
open KeyedMaps Utf8

inductive PolicyAction where
  | allow
  | deny
  | modify (value : Bytes)
  | log
  deriving DecidableEq

inductive PolicyTrigger where
  | beforeRead
  | afterRead
  | beforeWrite
  | afterWrite
  | beforeDelete
  | afterDelete
  deriving DecidableEq

structure PolicyContext where
  operation : Str
  key : Bytes
  value : Option Bytes
  agentId : Option Str
  sessionId : Option Str
  timestamp : Nat
  custom : Map Str Str

def PolicyContext.new (operation : Str) (key : Bytes) (now : Nat) : PolicyContext :=
  ⟨operation, key, none, none, none, now, ∅⟩

inductive ConnCall where
  | put (key value : Bytes)
  | get (key : Bytes)
  | delete (key : Bytes)
  deriving DecidableEq

/-- `compile` is the expression engine, `refill` the tokens gained in a time, and `respond` the
    answer of the connection to a call after the calls before it. -/
structure Host where
  compile : Bytes → Option (Str → Bool)
  refill : Nat → UInt32 → UInt32
  respond : List ConnCall → ConnCall → Except Unit (Option Bytes)

section Patterns

def star : UInt8 := 0x2A
def dot : UInt8 := 0x2E
def slash : UInt8 := 0x2F

def escapeDots (pattern : Bytes) : Bytes :=
  pattern.flatMap fun b => if b = dot then (Str.ascii "\\.").bytes else [b]

/-- The first replacement of stars: every pair, from the left. -/
def replacePairs : Bytes → Bytes
  | [] => []
  | [b] => [b]
  | b :: c :: rest =>
    if b = star ∧ c = star then (Str.ascii ".*").bytes ++ replacePairs rest
    else b :: replacePairs (c :: rest)

/-- The second replacement also meets the stars that the first one wrote. -/
def replaceStars (pattern : Bytes) : Bytes :=
  pattern.flatMap fun b => if b = star then (Str.ascii "[^/]*").bytes else [b]

def regexText (pattern : Str) : Bytes :=
  (Str.ascii "^").bytes ++ replaceStars (replacePairs (escapeDots pattern.bytes)) ++ (Str.ascii "$").bytes

example : regexText (Str.ascii "logs/**/a.txt") = (Str.ascii "^logs/.[^/]*/a\\.txt$").bytes := by decide

structure PatternPolicy where
  pattern : Str
  handler : PolicyContext → PolicyAction

namespace PatternPolicy
variable (host : Host) (policy : PatternPolicy)

/-- A pattern that does not compile matches the empty text only. -/
def regex : Str → Bool := (host.compile (regexText policy.pattern)).getD fun text => text = .empty

def matchesKey (key : Bytes) : Bool :=
  match Str.fromUtf8 key with
  | some text => policy.regex host text
  | none => false

end PatternPolicy

/-- What a pattern is meant to say. -/
inductive GlobToken where
  | byte (b : UInt8)
  | segment
  | any
  deriving DecidableEq

def globTokens : Bytes → List GlobToken
  | [] => []
  | [b] => if b = star then [.segment] else [.byte b]
  | b :: c :: rest =>
    if b = star then
      if c = star then .any :: globTokens rest else .segment :: globTokens (c :: rest)
    else .byte b :: globTokens (c :: rest)

def GlobMatch : List GlobToken → Bytes → Prop
  | [], key => key = []
  | .byte b :: tokens, key => ∃ rest, key = b :: rest ∧ GlobMatch tokens rest
  | .segment :: tokens, key => ∃ taken rest, key = taken ++ rest ∧ slash ∉ taken ∧ GlobMatch tokens rest
  | .any :: tokens, key => ∃ taken rest, key = taken ++ rest ∧ GlobMatch tokens rest

def Glob (pattern : Str) (key : Bytes) : Prop := GlobMatch (globTokens pattern.bytes) key

end Patterns

structure RateLimiter where
  maxPerMinute : UInt32
  tokens : UInt32
  lastRefill : Nat

namespace RateLimiter

def new (maxPerMinute : UInt32) (now : Nat) : RateLimiter := ⟨maxPerMinute, maxPerMinute, now⟩

/-- The sum wraps around, as in a release build. -/
def tryAcquire (host : Host) (now : Nat) (limiter : RateLimiter) : Bool × RateLimiter :=
  let refill := host.refill (now - limiter.lastRefill) limiter.maxPerMinute
  let limiter := if 0 < refill then
      { limiter with tokens := min (limiter.tokens + refill) limiter.maxPerMinute, lastRefill := now }
    else limiter
  if 0 < limiter.tokens then (true, { limiter with tokens := limiter.tokens - 1 }) else (false, limiter)

end RateLimiter

structure RateLimitConfig where
  operation : Str
  maxPerMinute : UInt32
  scope : Str

structure AuditEntry where
  timestamp : Nat
  operation : Str
  key : Str
  agentId : Option Str
  sessionId : Option Str
  result : Str

structure PolicyEngine where
  policies : PolicyTrigger → List PatternPolicy
  rateLimiters : Map Str (Map Str RateLimiter)
  rateLimitConfigs : List RateLimitConfig
  auditLog : List AuditEntry
  auditEnabled : Bool
  conn : List ConnCall

namespace PolicyEngine

def maxAuditEntries : Nat := 10000

def new : PolicyEngine := ⟨fun _ => [], ∅, [], [], false, []⟩

def register (engine : PolicyEngine) (trigger : PolicyTrigger) (policy : PatternPolicy) : PolicyEngine :=
  { engine with policies := Function.update engine.policies trigger (engine.policies trigger ++ [policy]) }

def scopeKey (scope : Str) (ctx : PolicyContext) : Str :=
  if scope = Str.ascii "global" then Str.ascii "global"
  else if scope = Str.ascii "agent_id" then ctx.agentId.getD (Str.ascii "unknown")
  else if scope = Str.ascii "session_id" then ctx.sessionId.getD (Str.ascii "unknown")
  else (get ctx.custom scope).getD (Str.ascii "unknown")

/-- Every limit that applies takes a token, up to the first that has none. -/
def acquireAll (host : Host) (now : Nat) (operation : Str) (ctx : PolicyContext) :
    List RateLimitConfig → Map Str (Map Str RateLimiter) → Bool × Map Str (Map Str RateLimiter)
  | [], limiters => (true, limiters)
  | config :: configs, limiters =>
    if config.operation ≠ operation ∧ config.operation ≠ Str.ascii "all" then
      acquireAll host now operation ctx configs limiters
    else
      let limiterKey := (config.operation.append (Str.ascii ":")).append config.scope
      let scopeLimiters := (get limiters limiterKey).getD ∅
      let scope := scopeKey config.scope ctx
      let limiter := (get scopeLimiters scope).getD (.new config.maxPerMinute now)
      let (acquired, limiter) := limiter.tryAcquire host now
      let limiters := limiters.insert limiterKey (scopeLimiters.insert scope limiter)
      if acquired then acquireAll host now operation ctx configs limiters else (false, limiters)

variable (host : Host) (engine : PolicyEngine) (now : Nat)

def checkRateLimit (operation : Str) (ctx : PolicyContext) : Bool × PolicyEngine :=
  let (allowed, limiters) := acquireAll host now operation ctx engine.rateLimitConfigs engine.rateLimiters
  (allowed, { engine with rateLimiters := limiters })

/-- The first policy that denies or modifies decides. -/
def firstDecision (ctx : PolicyContext) : List PatternPolicy → PolicyAction
  | [] => .allow
  | policy :: rest =>
    if policy.matchesKey host ctx.key then
      match policy.handler ctx with
      | .deny => .deny
      | .modify value => .modify value
      | _ => firstDecision ctx rest
    else firstDecision ctx rest

def evaluatePolicies (trigger : PolicyTrigger) (ctx : PolicyContext) : PolicyAction :=
  firstDecision host ctx (engine.policies trigger)

def audit (operation : Str) (key : Bytes) (ctx : PolicyContext) (result : Str) : PolicyEngine :=
  if engine.auditEnabled then
    let log := engine.auditLog ++
      [⟨now, operation, Str.fromUtf8Lossy key, ctx.agentId, ctx.sessionId, result⟩]
    { engine with auditLog := log.drop (log.length - maxAuditEntries) }
  else engine

def callConn (call : ConnCall) : Except Unit (Option Bytes) × PolicyEngine :=
  (host.respond engine.conn call, { engine with conn := engine.conn ++ [call] })

def rateLimited : String := "Rate limit exceeded"

/-- What the policies after a write return is not used. -/
def put (key value : Bytes) (ctx : Option PolicyContext) : Except String Unit × PolicyEngine :=
  let write := Str.ascii "write"
  let ctx := ctx.getD (.new write key now)
  let (acquired, engine) := engine.checkRateLimit host now write ctx
  if acquired then
    let store (value : Bytes) : Except String Unit × PolicyEngine :=
      match engine.callConn host (.put key value) with
      | (.error _, engine) => (.error "Write failed", engine)
      | (.ok _, engine) => (.ok (), engine.audit now write key ctx (Str.ascii "allowed"))
    match engine.evaluatePolicies host .beforeWrite ctx with
    | .deny => (.error "Write blocked by policy", engine.audit now write key ctx (Str.ascii "denied"))
    | .modify modified => store modified
    | _ => store value
  else (.error rateLimited, engine.audit now write key ctx (Str.ascii "rate_limited"))

def get (key : Bytes) (ctx : Option PolicyContext) : Except String (Option Bytes) × PolicyEngine :=
  let read := Str.ascii "read"
  let ctx := ctx.getD (.new read key now)
  let (acquired, engine) := engine.checkRateLimit host now read ctx
  if acquired then
    match engine.evaluatePolicies host .beforeRead ctx with
    | .deny => (.error "Read blocked by policy", engine.audit now read key ctx (Str.ascii "denied"))
    | _ =>
      match engine.callConn host (.get key) with
      | (.error _, engine) => (.error "Read failed", engine)
      | (.ok none, engine) => (.ok none, engine.audit now read key ctx (Str.ascii "allowed"))
      | (.ok (some value), engine) =>
        match engine.evaluatePolicies host .afterRead { ctx with value := some value } with
        | .modify modified => (.ok (some modified), engine.audit now read key ctx (Str.ascii "allowed"))
        | .deny => (.ok none, engine.audit now read key ctx (Str.ascii "redacted"))
        | _ => (.ok (some value), engine.audit now read key ctx (Str.ascii "allowed"))
  else (.error rateLimited, engine.audit now read key ctx (Str.ascii "rate_limited"))

def delete (key : Bytes) (ctx : Option PolicyContext) : Except String Unit × PolicyEngine :=
  let delete := Str.ascii "delete"
  let ctx := ctx.getD (.new delete key now)
  let (acquired, engine) := engine.checkRateLimit host now delete ctx
  if acquired then
    match engine.evaluatePolicies host .beforeDelete ctx with
    | .deny => (.error "Delete blocked by policy", engine.audit now delete key ctx (Str.ascii "denied"))
    | _ =>
      match engine.callConn host (.delete key) with
      | (.error _, engine) => (.error "Delete failed", engine)
      | (.ok _, engine) => (.ok (), engine.audit now delete key ctx (Str.ascii "allowed"))
  else (.error rateLimited, engine.audit now delete key ctx (Str.ascii "rate_limited"))

end PolicyEngine

/-- A call with its own data; the key and the context are given beside it. -/
inductive Request where
  | put (value : Bytes)
  | get
  | delete

namespace Request

def trigger : Request → PolicyTrigger
  | .put _ => .beforeWrite
  | .get => .beforeRead
  | .delete => .beforeDelete

def operation : Request → Str
  | .put _ => Str.ascii "write"
  | .get => Str.ascii "read"
  | .delete => Str.ascii "delete"

def context (request : Request) (key : Bytes) (now : Nat) (ctx : Option PolicyContext) : PolicyContext :=
  ctx.getD (.new request.operation key now)

def perform (host : Host) (engine : PolicyEngine) (now : Nat) (key : Bytes) (ctx : Option PolicyContext) :
    Request → Except String (Option Bytes) × PolicyEngine
  | .put value => ((engine.put host now key value ctx).1.map fun _ => none, (engine.put host now key value ctx).2)
  | .get => engine.get host now key ctx
  | .delete => ((engine.delete host now key ctx).1.map fun _ => none, (engine.delete host now key ctx).2)

end Request

end Policies
