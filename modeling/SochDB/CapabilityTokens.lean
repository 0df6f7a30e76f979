import SochDB.Library.LittleEndian
import SochDB.FilterIr

/-!
Capability tokens: a token is signed over its fields written one after the other. The keyed
hash is a parameter. Fields of given lengths can be read back from the payload; lengths that
are not known cannot.
-/
namespace CapabilityTokens
open Utf8 LittleEndian FilterIr List

structure TokenCapabilities where
  canRead : Bool
  canWrite : Bool
  canDelete : Bool
  canAdmin : Bool
  canDelegate : Bool
  deriving DecidableEq

structure CapabilityToken where
  version : UInt8
  tokenId : Str
  allowedNamespaces : List Str
  tenantId : Option Str
  projectId : Option Str
  capabilities : TokenCapabilities
  issuedAt : UInt64
  expiresAt : UInt64
  aclTags : List Str
  signature : Bytes
  deriving DecidableEq

def currentVersion : UInt8 := 1

namespace CapabilityToken
variable (token : CapabilityToken)

def isExpired (now : UInt64) : Bool := token.expiresAt < now

def toAuthScope : AuthScope where
  allowedNamespaces := token.allowedNamespaces
  tenantId := token.tenantId
  projectId := token.projectId
  expiresAt := some token.expiresAt
  capabilities := ⟨token.capabilities.canRead, token.capabilities.canWrite, token.capabilities.canDelete,
    token.capabilities.canAdmin⟩
  aclTags := token.aclTags

end CapabilityToken

def TokenCapabilities.flags (c : TokenCapabilities) : UInt8 :=
  c.canRead.toUInt8 ||| c.canWrite.toUInt8 <<< 1 ||| c.canDelete.toUInt8 <<< 2 |||
    c.canAdmin.toUInt8 <<< 3 ||| c.canDelegate.toUInt8 <<< 4

def terminated (texts : List Str) : Bytes := texts.flatMap fun s => s.bytes ++ [0]

/-- An absent text is written like an empty one. -/
def optional (text : Option Str) : Bytes := (text.map Str.bytes).getD [] ++ [0]

def computePayload (token : CapabilityToken) : Bytes :=
  token.version :: (token.tokenId.bytes ++ (terminated token.allowedNamespaces ++
    (optional token.tenantId ++ (optional token.projectId ++ (token.capabilities.flags ::
      (leBytes 8 token.issuedAt.toNat ++ (leBytes 8 token.expiresAt.toNat ++ terminated token.aclTags)))))))

inductive TokenError where
  | expired
  | invalidSignature
  | unsupportedVersion (version : UInt8)
  | revoked
  deriving DecidableEq

section Signing
variable (hmac : Bytes → Bytes)

def sign (token : CapabilityToken) : CapabilityToken :=
  { token with signature := hmac (computePayload token) }

def verify (now : UInt64) (token : CapabilityToken) : Except TokenError Unit :=
  if token.version ≠ currentVersion then .error (.unsupportedVersion token.version)
  else if token.isExpired now then .error .expired
  else if token.signature ≠ hmac (computePayload token) then .error .invalidSignature
  else .ok ()

def validate (revoked : List Str) (now : UInt64) (token : CapabilityToken) : Except TokenError AuthScope :=
  if token.tokenId ∈ revoked then .error .revoked
  else match verify hmac now token with
    | .error e => .error e
    | .ok _ => .ok token.toAuthScope

/-- A correct tag of a payload comes from a token that was signed. -/
def Unforgeable (issued : List CapabilityToken) (token : CapabilityToken) : Prop :=
  token.signature = hmac (computePayload token) → ∃ i ∈ issued, computePayload i = computePayload token

/-- A token is accepted only if it was issued as it is, and not revoked. -/
def Authentic (issued : List CapabilityToken) (revoked : List Str) (now : UInt64)
    (token : CapabilityToken) : Prop :=
  ∀ scope, validate hmac revoked now token = .ok scope → token ∈ issued ∧ token.tokenId ∉ revoked

end Signing

structure Layout where
  tokenId : Nat
  allowedNamespaces : List Nat
  tenantId : Option Nat
  projectId : Option Nat
  aclTags : List Nat
  deriving DecidableEq

def length (s : Str) : Nat := s.bytes.length

def layout (token : CapabilityToken) : Layout :=
  ⟨length token.tokenId, token.allowedNamespaces.map length, token.tenantId.map length,
    token.projectId.map length, token.aclTags.map length⟩

def Layout.size (l : Layout) : Nat :=
  l.tokenId + (l.allowedNamespaces.map (· + 1)).sum + l.tenantId.getD 0 + l.projectId.getD 0 +
    (l.aclTags.map (· + 1)).sum + 20

section Reading

theorem terminated_length (texts : List Str) :
    (terminated texts).length = ((texts.map length).map (· + 1)).sum := by
  induction texts with
  | nil => rfl
  | cons s texts ih =>
    unfold terminated at ih ⊢
    simp only [flatMap_cons, length_append, length_singleton, ih, map_cons,
      sum_cons, length]

theorem optional_length (text : Option Str) : (optional text).length = (text.map length).getD 0 + 1 := by
  cases text with
  | none => rfl
  | some s => simp [optional, length]

theorem payload_length (token : CapabilityToken) : (computePayload token).length = (layout token).size := by
  simp only [computePayload, length_cons, length_append, terminated_length, optional_length, leBytes_length,
    Layout.size, layout, length]
  omega

theorem terminated_injective {texts others : List Str} (lengths : texts.map length = others.map length)
    (same : terminated texts = terminated others) : texts = others := by
  induction texts generalizing others with
  | nil =>
    cases others with
    | nil => rfl
    | cons => cases lengths
  | cons s texts ih =>
    cases others with
    | nil => cases lengths
    | cons o others =>
      obtain ⟨first, rest⟩ := List.cons.inj lengths
      have apart : s.bytes ++ [0] ++ terminated texts = o.bytes ++ [0] ++ terminated others := same
      rw [append_assoc, append_assoc] at apart
      obtain ⟨head, tail⟩ := append_inj apart first
      rw [Str.ext_bytes head, ih rest (append_cancel_left tail)]

theorem optional_injective {text other : Option Str} (lengths : text.map length = other.map length)
    (same : optional text = optional other) : text = other := by
  cases text with
  | none =>
    cases other with
    | none => rfl
    | some => cases lengths
  | some s =>
    cases other with
    | none => cases lengths
    | some o =>
      have bytes : s.bytes ++ [0] = o.bytes ++ [0] := same
      rw [Str.ext_bytes (append_cancel_right bytes)]

theorem flags_injective {c d : TokenCapabilities} (same : c.flags = d.flags) : c = d := by
  obtain ⟨r, w, x, a, g⟩ := c
  obtain ⟨r', w', x', a', g'⟩ := d
  revert r w x a g r' w' x' a' g'
  decide

theorem word_injective {n m : UInt64} (same : leBytes 8 n.toNat = leBytes 8 m.toNat) : n = m :=
  UInt64.toNat_inj.mp (leBytes_injective n.toNat_lt m.toNat_lt same)

theorem payload_injective {a b : CapabilityToken} (layouts : layout a = layout b)
    (same : computePayload a = computePayload b) : a = { b with signature := a.signature } := by
  obtain ⟨version, tokenId, namespaces, tenant, project, caps, issued, expires, tags, signature⟩ := a
  obtain ⟨version', tokenId', namespaces', tenant', project', caps', issued', expires', tags', signature'⟩ := b
  simp only [layout, Layout.mk.injEq] at layouts
  obtain ⟨ids, spaces, tenants, projects, tagLengths⟩ := layouts
  obtain ⟨versions, rest⟩ := List.cons.inj same
  obtain ⟨sameId, rest⟩ := append_inj rest ids
  obtain ⟨sameSpaces, rest⟩ := append_inj rest
    (by rw [terminated_length, terminated_length]; dsimp only; rw [spaces])
  obtain ⟨sameTenant, rest⟩ := append_inj rest
    (by rw [optional_length, optional_length]; dsimp only; rw [tenants])
  obtain ⟨sameProject, rest⟩ := append_inj rest
    (by rw [optional_length, optional_length]; dsimp only; rw [projects])
  obtain ⟨flags, rest⟩ := List.cons.inj rest
  obtain ⟨sameIssued, rest⟩ := append_inj rest (by rw [leBytes_length, leBytes_length])
  obtain ⟨sameExpires, sameTags⟩ := append_inj rest (by rw [leBytes_length, leBytes_length])
  dsimp only at versions sameId sameSpaces sameTenant sameProject flags sameIssued sameExpires sameTags
  rw [versions, Str.ext_bytes sameId, terminated_injective spaces sameSpaces, optional_injective tenants sameTenant,
    optional_injective projects sameProject, flags_injective flags, word_injective sameIssued,
    word_injective sameExpires, terminated_injective tagLengths sameTags]

end Reading

section Blanks

def zeros (n : Nat) : Str where
  bytes := List.replicate n 0
  valid := isUtf8_ascii fun b member => by rw [List.eq_of_mem_replicate member]; decide

def blank (l : Layout) : CapabilityToken where
  version := currentVersion
  tokenId := zeros l.tokenId
  allowedNamespaces := l.allowedNamespaces.map zeros
  tenantId := l.tenantId.map zeros
  projectId := l.projectId.map zeros
  capabilities := ⟨false, false, false, false, false⟩
  issuedAt := 0
  expiresAt := 0
  aclTags := l.aclTags.map zeros
  signature := []

theorem length_zeros (n : Nat) : length (zeros n) = n := List.length_replicate

theorem layout_blank (l : Layout) : layout (blank l) = l := by
  have all : ∀ ns : List Nat, (ns.map zeros).map length = ns := by
    intro ns
    rw [map_map]
    exact (map_congr_left fun n _ => length_zeros n).trans (map_id' ns)
  have one : ∀ n : Option Nat, (n.map zeros).map length = n := by
    intro n
    cases n with
    | none => rfl
    | some n => rw [Option.map_some, Option.map_some, length_zeros]
  simp only [layout, blank, all, one, length_zeros]

theorem zero_terminated {ns : List Nat} {b : UInt8} (member : b ∈ terminated (ns.map zeros)) : b = 0 := by
  obtain ⟨s, inside, here⟩ := mem_flatMap.mp member
  obtain ⟨n, _, rfl⟩ := mem_map.mp inside
  rcases mem_append.mp here with text | last
  · exact eq_of_mem_replicate text
  · exact mem_singleton.mp last

theorem zero_optional {n : Option Nat} {b : UInt8} (member : b ∈ optional (n.map zeros)) : b = 0 := by
  rcases mem_append.mp member with text | last
  · cases n with
    | none => cases text
    | some n => exact eq_of_mem_replicate text
  · exact mem_singleton.mp last

theorem payload_blank (l : Layout) :
    ∃ n, computePayload (blank l) = currentVersion :: List.replicate n 0 := by
  have words : ∀ b ∈ leBytes 8 (0 : UInt64).toNat, b = 0 := by decide +kernel
  have noFlags : TokenCapabilities.flags ⟨false, false, false, false, false⟩ = 0 := by decide
  refine ⟨_, congrArg (currentVersion :: ·) (eq_replicate_iff.mpr ⟨rfl, ?_⟩)⟩
  simp only [forall_mem_append, forall_mem_cons]
  exact ⟨fun _ => eq_of_mem_replicate, fun _ => zero_terminated, fun _ => zero_optional,
    fun _ => zero_optional, noFlags, words, words, fun _ => zero_terminated⟩

theorem blanks_agree {l m : Layout} (sizes : l.size = m.size) :
    computePayload (blank l) = computePayload (blank m) := by
  obtain ⟨i, first⟩ := payload_blank l
  obtain ⟨j, second⟩ := payload_blank m
  have lengths : (computePayload (blank l)).length = (computePayload (blank m)).length := by
    rw [payload_length, payload_length, layout_blank, layout_blank, sizes]
  rw [first, second] at lengths ⊢
  simp only [length_cons, length_replicate] at lengths
  have equal : i = j := by omega
  rw [equal]

end Blanks

section Authenticity
variable {hmac : Bytes → Bytes}
variable {revoked : List Str} {now : UInt64} {token : CapabilityToken}

theorem signature_of_validate {scope : AuthScope} (accepted : validate hmac revoked now token = .ok scope) :
    token.tokenId ∉ revoked ∧ token.signature = hmac (computePayload token) := by
  unfold validate verify at accepted
  split at accepted
  · cases accepted
  · rename_i unrevoked
    refine ⟨unrevoked, ?_⟩
    by_contra wrong
    split at accepted
    · cases accepted
    · rename_i verified
      split at verified
      · cases verified
      · split at verified <;> cases verified

theorem validate_of_signature (unrevoked : token.tokenId ∉ revoked)
    (version : token.version = currentVersion) (unexpired : token.isExpired now = false)
    (signed : token.signature = hmac (computePayload token)) :
    validate hmac revoked now token = .ok token.toAuthScope := by
  unfold validate verify
  simp [unrevoked, version, unexpired, ← signed]

/-- Tokens of the given layouts cannot be altered into one of a further layout, if and only if
    no layout has its payload length but other lengths of the texts. -/
theorem tokens_authentic_iff (hmac : Bytes → Bytes) (layouts : List Layout) (presented : Layout) :
    (∀ (tokens : List CapabilityToken) (revoked : List Str) (now : UInt64) (token : CapabilityToken),
      (∀ t ∈ tokens, layout t ∈ layouts) → layout token = presented →
      Unforgeable hmac (tokens.map (sign hmac)) token →
      Authentic hmac (tokens.map (sign hmac)) revoked now token) ↔
      ∀ l ∈ layouts, l.size = presented.size → l = presented := by
  constructor
  · intro authentic l member sizes
    have issued := authentic [blank l] [] 0 (sign hmac (blank presented))
      (fun t inside => by rw [mem_singleton.mp inside, layout_blank]; exact member)
      (layout_blank presented)
      (fun _ => ⟨sign hmac (blank l), mem_singleton_self _, blanks_agree sizes⟩) _
      (validate_of_signature not_mem_nil rfl rfl rfl)
    have same : sign hmac (blank presented) = sign hmac (blank l) := mem_singleton.mp issued.1
    have layoutsEqual : layout (sign hmac (blank presented)) = layout (sign hmac (blank l)) :=
      congrArg layout same
    calc l = layout (blank l) := (layout_blank l).symm
      _ = layout (blank presented) := layoutsEqual.symm
      _ = presented := layout_blank presented
  · intro distinguishable tokens revoked now token known isPresented unforgeable scope accepted
    obtain ⟨unrevoked, signed⟩ := signature_of_validate accepted
    refine ⟨?_, unrevoked⟩
    obtain ⟨i, member, same⟩ := unforgeable signed
    obtain ⟨u, inside, rfl⟩ := mem_map.mp member
    have sizes : (layout u).size = presented.size := by
      rw [← isPresented, ← payload_length, ← payload_length]
      exact congrArg List.length same
    have layoutsEqual : layout token = layout (sign hmac u) :=
      isPresented.trans (distinguishable (layout u) (known u inside) sizes).symm
    have fields := payload_injective layoutsEqual same.symm
    have tags : token.signature = (sign hmac u).signature := by
      rw [signed, ← same]
      rfl
    rw [fields, tags]
    exact member

end Authenticity

section Examples

def reader : TokenCapabilities := ⟨true, false, false, false, false⟩

def sample : CapabilityToken where
  version := 1
  tokenId := Str.ascii "tok_17"
  allowedNamespaces := [Str.ascii "prod"]
  tenantId := none
  projectId := none
  capabilities := reader
  issuedAt := 0
  expiresAt := 3600
  aclTags := []
  signature := []

/-- With one layout in use, an accepted token was issued. -/
theorem sample_token_is_authentic :
    validate id [] 0 (sign id sample) = .ok sample.toAuthScope ∧
      Authentic id [sign id sample] [] 0 (sign id sample) := by
  refine ⟨validate_of_signature not_mem_nil rfl rfl rfl, ?_⟩
  exact (tokens_authentic_iff id [layout sample] (layout sample)).mpr
    (fun l member _ => mem_singleton.mp member) [sample] [] 0 (sign id sample)
    (fun t inside => by rw [mem_singleton.mp inside]; exact mem_singleton_self _) rfl
    (fun _ => ⟨sign id sample, mem_singleton_self _, rfl⟩)

/-- The last digit of the id is read as the first letter of the namespace, and a zero byte in
    a namespace as the end of one. The first survives the revocation of the issued id. -/
theorem moved_boundaries_are_accepted :
    let moved := { sample with tokenId := Str.ascii "tok_1", allowedNamespaces := [Str.ascii "7prod"] }
    let joined := { sample with allowedNamespaces := [Str.ascii "a\x00b"] }
    let parted := { sample with allowedNamespaces := [Str.ascii "a", Str.ascii "b"] }
    (∀ hmac : Bytes → Bytes,
      let presented := { moved with signature := (sign hmac sample).signature }
      Unforgeable hmac [sign hmac sample] presented ∧
      validate hmac [sample.tokenId] 0 presented = .ok moved.toAuthScope ∧
      ¬Authentic hmac [sign hmac sample] [sample.tokenId] 0 presented) ∧
    (∀ hmac : Bytes → Bytes,
      let presented := { parted with signature := (sign hmac joined).signature }
      Unforgeable hmac [sign hmac joined] presented ∧
      validate hmac [] 0 presented = .ok parted.toAuthScope ∧
      ¬Authentic hmac [sign hmac joined] [] 0 presented) := by
  intro moved joined parted
  have shifted : computePayload moved = computePayload sample := by decide
  have split : computePayload parted = computePayload joined := by decide
  have renamed : moved.tokenId ∉ [sample.tokenId] := by decide
  have recounted : ¬parted.allowedNamespaces = joined.allowedNamespaces := by decide
  constructor
  · intro hmac presented
    have accepted : validate hmac [sample.tokenId] 0 presented = .ok moved.toAuthScope :=
      validate_of_signature renamed rfl rfl (congrArg hmac shifted.symm)
    refine ⟨fun _ => ⟨sign hmac sample, mem_singleton_self _, shifted.symm⟩, accepted, ?_⟩
    intro authentic
    have same := mem_singleton.mp (authentic _ accepted).1
    have ids : presented.tokenId = (sign hmac sample).tokenId := congrArg _ same
    exact renamed (mem_singleton.mpr ids)
  · intro hmac presented
    have accepted : validate hmac [] 0 presented = .ok parted.toAuthScope :=
      validate_of_signature not_mem_nil rfl rfl (congrArg hmac split.symm)
    refine ⟨fun _ => ⟨sign hmac joined, mem_singleton_self _, split.symm⟩, accepted, ?_⟩
    intro authentic
    have same := mem_singleton.mp (authentic _ accepted).1
    have names : presented.allowedNamespaces = (sign hmac joined).allowedNamespaces := congrArg _ same
    exact recounted names

end Examples

end CapabilityTokens
