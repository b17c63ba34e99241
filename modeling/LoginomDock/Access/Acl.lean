import LoginomDock.Access.Namespace
import LoginomDock.Library.Ranked
import Mathlib.Data.List.Lex
import Mathlib.Data.Char

/-! Grants are stored with the records of the context store: those given directly to a URI, and those it inherits. -/

namespace LoginomDock.Access

inductive AclError where
  | invalidArgument (message : Text)
  /-- `RuntimeError(f"Invalid ACL grant token: {raw!r}")` -/
  | invalidToken (raw : Text)
  /-- `RuntimeError(f"Inconsistent ACL fields for context URI: {uri}")` -/
  | inconsistent (uri : Text)
  /-- What `uri_parts` raises -/
  | uri (error : AccessError)
  deriving DecidableEq

inductive AclLevel where
  | read
  | write
  | manage
  deriving DecidableEq

/-- `_LEVEL_MASK` -/
def AclLevel.mask : AclLevel → Nat
  | read => 1
  | write => 3
  | manage => 7

theorem AclLevel.mask_injective : Function.Injective AclLevel.mask := by
  intro first second same
  cases first <;> cases second <;> simp_all [AclLevel.mask]

instance : LinearOrder AclLevel := LinearOrder.lift' AclLevel.mask AclLevel.mask_injective

def partition (separator : Char) (text : Text) : Text × Option Text :=
  (text.takeWhile (· ≠ separator), match text.dropWhile (· ≠ separator) with
    | [] => none
    | _ :: rest => some rest)

def normalizeAclPrincipal (principal : Text) : Except AclError Text :=
  let normalized := strip principal
  match partition ':' normalized with
  | (kind, some identifier) =>
    if kind = "user" then
      if identifier = ['*'] then .ok normalized
      else match validateUserId identifier with
        | some message => .error (.invalidArgument message)
        | none => .ok normalized
    else if kind = "group" then
      if identifier = ['*'] then .error (.invalidArgument "group:* is not supported")
      else match validateIdentifierPart identifier "group_id" with
        | some message => .error (.invalidArgument message)
        | none => .ok normalized
    else .error (.invalidArgument "principal must use user:<id> or group:<id>")
  | (_, none) => .error (.invalidArgument "principal must use user:<id> or group:<id>")

abbrev Principal := { text : Text // normalizeAclPrincipal text = .ok text }

section

variable {principal normalized : Text} (done : normalizeAclPrincipal principal = .ok normalized)

include done

theorem normalizeAclPrincipal_ok :
    normalized = strip principal := by
  rw [normalizeAclPrincipal] at done
  split at done
  · split at done
    · split at done
      · cases done
        rfl
      · split at done
        · cases done
        · cases done
          rfl
    · split at done
      · split at done
        · cases done
        · split at done
          · cases done
          · cases done
            rfl
      · cases done
  · cases done

theorem normalizeAclPrincipal_normalized :
    normalizeAclPrincipal normalized = .ok normalized := by
  have same := normalizeAclPrincipal_ok done
  subst same
  rw [← done, normalizeAclPrincipal, normalizeAclPrincipal, strip_strip]

end

def toPrincipal (raw : Text) : Except AclError Principal :=
  match done : normalizeAclPrincipal raw with
  | .error error => .error error
  | .ok normalized => .ok ⟨normalized, normalizeAclPrincipal_normalized done⟩

theorem toPrincipal_val (principal : Principal) : toPrincipal principal.1 = .ok principal := by
  rw [toPrincipal]
  split
  next failed => rw [principal.2] at failed; cases failed
  next done =>
    rw [principal.2] at done
    cases done
    rfl

def normalizeAclLevel (value : Text) : Except AclError AclLevel :=
  let stripped := strip value
  if stripped = "read" then .ok .read
  else if stripped = "write" then .ok .write
  else if stripped = "manage" then .ok .manage
  else .error (.invalidArgument "ACL level must be read, write, or manage")

def aclPrincipals (ctx : RequestContext) : List Text :=
  ("user:" ++ ctx.user.userId) :: "user:*" :: ctx.groupIds.map ("group:" ++ ·)

abbrev DirectAcl := Ranked Principal AclLevel

abbrev Grants := Principal → WithBot AclLevel

namespace DirectAcl

/-- `DirectAcl.from_entries` with principals and levels as a request gives them -/
def ofRequest (entries : List (Text × Text)) : Except AclError DirectAcl := do
  let normalized ← entries.mapM fun entry => do
    let principal ← toPrincipal entry.1
    let level ← normalizeAclLevel entry.2
    .ok (principal, level)
  .ok (Ranked.ofList normalized)

def principalsFor (acl : DirectAcl) (action : AclLevel) : List Principal :=
  (acl.entries.filter fun entry => entry.2.mask &&& action.mask = action.mask).map Prod.fst

def isEmpty (acl : DirectAcl) : Bool := acl.entries.isEmpty

end DirectAcl

def maskText : AclLevel → Text
  | .read => ['1']
  | .write => ['3']
  | .manage => ['7']

def levelOfMask (mask : Text) : Option AclLevel := [AclLevel.read, .write, .manage].find? fun level => maskText level = mask

def encodeGrant (entry : Principal × AclLevel) : Text := maskText entry.2 ++ ':' :: entry.1.1

/-- Whatever else `int` reads as a mask does not encode to the same token. -/
def decodeGrant (raw : Text) : Except AclError (Principal × AclLevel) :=
  match partition ':' raw with
  | (rawMask, some rawPrincipal) => match levelOfMask rawMask, toPrincipal rawPrincipal with
    | some level, .ok principal =>
      if raw = encodeGrant (principal, level) then .ok (principal, level) else .error (.invalidToken raw)
    | _, _ => .error (.invalidToken raw)
  | (_, none) => .error (.invalidToken raw)

theorem decodeGrant_encodeGrant (entry : Principal × AclLevel) : decodeGrant (encodeGrant entry) = .ok entry := by
  obtain ⟨principal, level⟩ := entry
  have cut : partition ':' (encodeGrant (principal, level)) = (maskText level, some principal.1) := by
    cases level <;> simp [partition, encodeGrant, maskText]
  have read : levelOfMask (maskText level) = some level := by cases level <;> rfl
  rw [decodeGrant, cut]
  dsimp only
  rw [read, toPrincipal_val]
  dsimp only
  rw [if_pos rfl]

structure EffectiveAcl where
  enabled : Bool
  direct : DirectAcl
  inherited : DirectAcl
  deriving DecidableEq

def EffectiveAcl.permissions (acl : EffectiveAcl) : DirectAcl := acl.inherited.union acl.direct

def EffectiveAcl.none : EffectiveAcl := ⟨false, Ranked.empty, Ranked.empty⟩

-- The lists are enabled once they grant something.
def EffectiveAcl.of (direct inherited : DirectAcl) : EffectiveAcl := ⟨!inherited.isEmpty || !direct.isEmpty, direct, inherited⟩

def aclAllows (acl : EffectiveAcl) (ctx : RequestContext) (action : AclLevel) : Bool :=
  (acl.permissions.principalsFor action).any fun principal => principal.1 ∈ aclPrincipals ctx

def liftUri {α : Type} : Except AccessError α → Except AclError α
  | .ok value => .ok value
  | .error error => .error (.uri error)

def isAclUri (uri : Text) : Except AclError Bool := do
  let parts ← liftUri (uriParts uri)
  .ok (parts.head? = some "resources".toList)

def canonical (parts : List Text) : Text := scheme ++ Text.joined parts

def aclAncestors (uri : Text) : Except AclError (List Text) := do
  let parts ← liftUri (uriParts uri)
  if parts.head? ≠ some "resources".toList then .error (.invalidArgument "ACL is only supported for viking://resources")
  else .ok ((List.range parts.length).map fun depth => canonical (parts.take (depth + 1)))

def hasImplicitManage (ctx : RequestContext) (uri : Text) : Except AclError Bool := do
  let acl ← isAclUri uri
  .ok (acl && ctx.role = .admin)

end LoginomDock.Access
