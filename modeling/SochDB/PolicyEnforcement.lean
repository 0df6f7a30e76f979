import SochDB.PolicyEngine

/-!
Which denials of a policy are enforced. The compiled expression of a plain pattern says what
the pattern does, so a call whose context has the key of the call, that key being text, is
refused, with the connection left alone, unless a policy that modifies comes first.
-/
namespace PolicyEnforcement
open KeyedMaps Utf8 Policies PolicyEngine List

section Patterns

/-- The bytes that mean something else than themselves in an expression, dot and star apart. -/
def special : Bytes := [0x5C, 0x2B, 0x3F, 0x28, 0x29, 0x7C, 0x5B, 0x5D, 0x7B, 0x7D, 0x5E, 0x24]

def Plain (pattern : Str) : Prop :=
  (∀ b ∈ pattern.bytes, b ∉ special) ∧ GlobToken.any ∉ globTokens pattern.bytes

def expression : GlobToken → Bytes
  | .byte b => if b = dot then (Str.ascii "\\.").bytes else [b]
  | .segment => (Str.ascii "[^/]*").bytes
  | .any => (Str.ascii ".*").bytes

/-- Without special bytes the engine takes the tokens, one after the other between the two ends
    of the text, for what they mean. -/
def Understands (host : Host) (pattern : Str) : Prop :=
  (∀ b ∈ pattern.bytes, b ∉ special) → ∃ matched,
    host.compile ((Str.ascii "^").bytes ++ (globTokens pattern.bytes).flatMap expression ++
      (Str.ascii "$").bytes) = some matched ∧
    ∀ text : Str, matched text = true ↔ Glob pattern text.bytes

theorem replacePairs_cons {b : UInt8} {rest : Bytes} (single : b = star → rest.head? ≠ some star) :
    replacePairs (b :: rest) = b :: replacePairs rest := by
  cases rest with
  | nil => rfl
  | cons c rest =>
    rw [replacePairs, if_neg]
    rintro ⟨first, rfl⟩
    exact single first rfl

theorem head_escapeDots {c : UInt8} {rest : Bytes} (other : c ≠ star) :
    (escapeDots (c :: rest)).head? ≠ some star := by
  by_cases isDot : c = dot
  · subst isDot
    intro same
    cases same
  · simpa [escapeDots, isDot] using other

/-- The three replacements for one byte, the bytes behind it being left to themselves. -/
theorem replaced_cons {b : UInt8} {rest : Bytes} (single : b = star → (escapeDots rest).head? ≠ some star) :
    replaceStars (replacePairs (escapeDots (b :: rest))) =
      expression (if b = star then .segment else .byte b) ++
        replaceStars (replacePairs (escapeDots rest)) := by
  have backslash : (0x5C : UInt8) ≠ star := by decide
  have point : (0x2E : UInt8) ≠ star := by decide
  by_cases isDot : b = dot
  · subst isDot
    have escaped : escapeDots (dot :: rest) = 0x5C :: 0x2E :: escapeDots rest := rfl
    rw [escaped, replacePairs_cons (absurd · backslash), replacePairs_cons (absurd · point)]
    rfl
  · have kept : escapeDots (b :: rest) = b :: escapeDots rest := by simp [escapeDots, isDot]
    rw [kept, replacePairs_cons single]
    by_cases isStar : b = star <;> simp [replaceStars, expression, isStar, isDot]

theorem replaced_eq {pattern : Bytes} (single : GlobToken.any ∉ globTokens pattern) :
    replaceStars (replacePairs (escapeDots pattern)) = (globTokens pattern).flatMap expression := by
  fun_induction globTokens pattern with
  | case1 => rfl
  | case2 => rfl
  | case3 b other =>
    rw [replaced_cons fun same => absurd same other, if_neg other]
    rfl
  | case4 => exact absurd mem_cons_self single
  | case5 c rest other ih =>
    rw [replaced_cons fun _ => head_escapeDots other, ih fun member => single (.tail _ member)]
    rfl
  | case6 b c rest other ih =>
    rw [replaced_cons fun same => absurd same other, ih fun member => single (.tail _ member), if_neg other]
    rfl

theorem matchesKey_iff {host : Host} {policy : PatternPolicy} {key : Bytes} (plain : Plain policy.pattern)
    (understood : Understands host policy.pattern) (text : (Str.fromUtf8 key).isSome) :
    policy.matchesKey host key = true ↔ Glob policy.pattern key := by
  obtain ⟨matched, compiled, means⟩ := understood plain.1
  obtain ⟨decoded, decodes⟩ := Option.isSome_iff_exists.mp text
  rw [← replaced_eq plain.2] at compiled
  have regex : policy.regex host = matched := by
    rw [PatternPolicy.regex, regexText, compiled]
    rfl
  rw [PatternPolicy.matchesKey, decodes, Str.fromUtf8_some.mp decodes]
  simpa only [regex] using means decoded

end Patterns

section Decisions
variable {host : Host} {ctx : PolicyContext} {policies : List PatternPolicy} {key : Bytes}

def Denies (ctx : PolicyContext) (key : Bytes) (policy : PatternPolicy) : Prop :=
  Glob policy.pattern key ∧ policy.handler ctx = .deny

/-- Before every policy that modifies the call one that denies it is registered. -/
def DenialFirst (ctx : PolicyContext) (key : Bytes) (policies : List PatternPolicy) : Prop :=
  ∀ before policy after value, policies = before ++ policy :: after → Glob policy.pattern key →
    policy.handler ctx = .modify value → ∃ denier ∈ before, Denies ctx key denier

theorem denier_behind {policy : PatternPolicy} (other : ¬Denies ctx key policy)
    (denied : ∃ denier ∈ policy :: policies, Denies ctx key denier) :
    ∃ denier ∈ policies, Denies ctx key denier := by
  obtain ⟨denier, member, denial⟩ := denied
  rcases mem_cons.mp member with rfl | behind
  · exact absurd denial other
  · exact ⟨denier, behind, denial⟩

theorem firstDecision_deny
    (matched : ∀ policy ∈ policies, policy.matchesKey host ctx.key = true ↔ Glob policy.pattern key)
    (denied : ∃ policy ∈ policies, Denies ctx key policy) (first : DenialFirst ctx key policies) :
    firstDecision host ctx policies = .deny := by
  induction policies with
  | nil =>
    obtain ⟨_, member, _⟩ := denied
    cases member
  | cons policy policies ih =>
    rw [firstDecision]
    by_cases denies : Denies ctx key policy
    · rw [if_pos ((matched policy mem_cons_self).mpr denies.1), denies.2]
    · have rest : firstDecision host ctx policies = .deny := by
        apply ih fun later member => matched later (mem_cons_of_mem policy member)
        · exact denier_behind denies denied
        · intro before modifier after value shape glob modifies
          apply denier_behind denies
          exact first (policy :: before) modifier after value (by rw [shape, cons_append]) glob modifies
      split
      · rename_i found
        have glob := (matched policy mem_cons_self).mp found
        cases decision : policy.handler ctx with
        | deny => rfl
        | modify value =>
          obtain ⟨_, member, _⟩ := first [] policy policies value rfl glob decision
          cases member
        | allow | log => exact rest
      · exact rest

end Decisions

section Calls
variable {host : Host} {engine : PolicyEngine} {now : Nat} {key : Bytes} {ctx : Option PolicyContext}

variable (operation : Str)

@[simp] theorem conn_audit (context : PolicyContext) (result : Str) :
    (engine.audit now operation key context result).conn = engine.conn := by
  unfold audit
  split <;> rfl

@[simp] theorem conn_checkRateLimit (context : PolicyContext) :
    (engine.checkRateLimit host now operation context).2.conn = engine.conn := rfl

@[simp] theorem policies_checkRateLimit (context : PolicyContext) :
    (engine.checkRateLimit host now operation context).2.policies = engine.policies := rfl

/-- An error, without a call on the connection. -/
def Refused {α : Type} (engine : PolicyEngine) (outcome : Except String α × PolicyEngine) : Prop :=
  (∃ message, outcome.1 = .error message) ∧ outcome.2.conn = engine.conn

/-- A rate limit of the operation has no token left. -/
def LimitReached (host : Host) (engine : PolicyEngine) (now : Nat) (request : Request) (ctx : PolicyContext) :
    Prop :=
  (acquireAll host now request.operation ctx engine.rateLimitConfigs engine.rateLimiters).1 = false

variable (request : Request)

theorem perform_limited (reached : LimitReached host engine now request (request.context key now ctx)) :
    Refused engine (request.perform host engine now key ctx) := by
  have flag : (engine.checkRateLimit host now request.operation (request.context key now ctx)).1 = false :=
    reached
  cases request <;> dsimp only [Request.operation, Request.context] at flag
  · simp [Request.perform, PolicyEngine.put, flag, Refused, Except.map]
  · simp [Request.perform, PolicyEngine.get, flag, Refused]
  · simp [Request.perform, PolicyEngine.delete, flag, Refused, Except.map]

theorem perform_denied (free : ¬LimitReached host engine now request (request.context key now ctx))
    (denied : engine.evaluatePolicies host request.trigger (request.context key now ctx) = .deny) :
    Refused engine (request.perform host engine now key ctx) := by
  have flag : (engine.checkRateLimit host now request.operation (request.context key now ctx)).1 = true :=
    Bool.not_eq_false _ ▸ free
  have decision : ((engine.checkRateLimit host now request.operation (request.context key now ctx)).2
      |>.evaluatePolicies host request.trigger (request.context key now ctx)) = .deny := denied
  cases request <;> dsimp only [Request.operation, Request.context, Request.trigger] at flag decision
  · simp [Request.perform, PolicyEngine.put, flag, decision, Refused, Except.map]
  · simp [Request.perform, PolicyEngine.get, flag, decision, Refused]
  · simp [Request.perform, PolicyEngine.delete, flag, decision, Refused, Except.map]

theorem perform_passed (free : ¬LimitReached host engine now request (request.context key now ctx))
    (passed : engine.evaluatePolicies host request.trigger (request.context key now ctx) ≠ .deny) :
    ∃ call, (request.perform host engine now key ctx).2.conn = engine.conn ++ [call] := by
  have flag : (engine.checkRateLimit host now request.operation (request.context key now ctx)).1 = true :=
    Bool.not_eq_false _ ▸ free
  have decision : ((engine.checkRateLimit host now request.operation (request.context key now ctx)).2
      |>.evaluatePolicies host request.trigger (request.context key now ctx)) ≠ .deny := passed
  cases request <;> dsimp only [Request.operation, Request.context, Request.trigger] at flag decision
  case put value =>
    dsimp only [Request.perform, PolicyEngine.put, callConn]
    rw [if_pos flag]
    split
    · exact absurd ‹_› decision
    all_goals
      split
      all_goals
        rename_i answer
        obtain ⟨_, rfl⟩ := Prod.mk.inj answer
        simp
  case get =>
    dsimp only [Request.perform, PolicyEngine.get, callConn]
    rw [if_pos flag]
    split
    · exact absurd ‹_› decision
    · split
      all_goals
        rename_i answer
        obtain ⟨_, rfl⟩ := Prod.mk.inj answer
      · simp
      · simp
      · split <;> simp
  case delete =>
    dsimp only [Request.perform, PolicyEngine.delete, callConn]
    rw [if_pos flag]
    split
    · exact absurd ‹_› decision
    · split
      all_goals
        rename_i answer
        obtain ⟨_, rfl⟩ := Prod.mk.inj answer
        simp

end Calls

section Examples

def letterA : Bytes := (Str.ascii "a").bytes

def plainHost : Host where
  compile text := if text = (Str.ascii "^a$").bytes then some fun s => s = Str.ascii "a" else none
  refill _ _ := 0
  respond _ _ := .ok none

def writePolicies (policies : List PatternPolicy) : PolicyEngine :=
  policies.foldl (fun engine policy => engine.register .beforeWrite policy) .new

def denying (pattern : String) : PatternPolicy := ⟨Str.ascii pattern, fun _ => .deny⟩

theorem not_refused {host : Host} {policies : List PatternPolicy} {now : Nat} {key value : Bytes}
    {ctx : Option PolicyContext}
    (passes : firstDecision host (Request.context (.put value) key now ctx) policies ≠ .deny)
    (registered : (writePolicies policies).policies .beforeWrite = policies)
    (unlimited : (writePolicies policies).rateLimitConfigs = []) :
    ¬Refused (writePolicies policies)
      ((Request.put value).perform host (writePolicies policies) now key ctx) := by
  intro refused
  have free : ¬LimitReached host (writePolicies policies) now (.put value)
      (Request.context (.put value) key now ctx) := by
    rw [LimitReached, unlimited]
    exact Bool.noConfusion
  have decided : (writePolicies policies).evaluatePolicies host .beforeWrite
      (Request.context (.put value) key now ctx) ≠ .deny := by
    rwa [evaluatePolicies, registered]
  obtain ⟨call, grown⟩ := perform_passed (.put value) free decided
  have same := refused.2.symm.trans grown
  simp at same

def Denied (policies : List PatternPolicy) (now : Nat) (value key : Bytes) (ctx : Option PolicyContext) : Prop :=
  ∃ policy ∈ (writePolicies policies).policies .beforeWrite,
    Denies (Request.context (.put value) key now ctx) key policy

end Examples

end PolicyEnforcement
