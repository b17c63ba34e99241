import LoginomDock.Library.Bytes
import LoginomDock.Library.Text

/-! The calls of the trait `FileSystem` that the encryption layer makes, and what a correct file system does at each of
them. -/

namespace LoginomDock.EncryptedFs

inductive Error where
  | notFound (path : Text)
  | alreadyExists (path : Text)
  | internal (message : String)
  /-- the errors that no caller here tells apart -/
  | other (message : String)
  deriving DecidableEq

inductive WriteFlag where
  | create
  | createNew
  | append
  | truncate
  | none
  deriving DecidableEq

structure FileSystem (σ : Type) where
  read : Text → UInt64 → UInt64 → σ → Except Error Bytes
  write : Text → Bytes → UInt64 → WriteFlag → σ → Except Error Nat × σ
  create : Text → σ → Except Error Unit × σ
  remove : Text → σ → Except Error Unit × σ
  rename : Text → Text → σ → Except Error Unit × σ
  replace : Text → Text → σ → Except Error Unit × σ
  ensureParentDirs : Text → Nat → σ → Except Error Unit × σ

def excerpt (content : Bytes) (offset size : Nat) : Bytes :=
  if size = 0 then content.drop offset else (content.drop offset).take size

@[simp] theorem excerpt_all (content : Bytes) : excerpt content 0 0 = content := by simp [excerpt]

def WriteFlag.Whole (flags : WriteFlag) : Prop := flags = .create ∨ flags = .truncate

section Correct

variable {σ π : Type}

-- What a program leaves as it was, outside of one place
def SameElsewhere (content : σ → π → Option Bytes) (before after : σ) (place : π) : Prop :=
  ∀ other, other ≠ place → content after other = content before other

-- A write that fails or comes short may leave anything at the path that it writes, and nothing elsewhere. The control
-- paths belong to plugins, which take a payload as a whole or not at all.
structure Correct (inner : FileSystem σ) (isControl : Text → Bool) (π : Type) where
  place : Text → π
  content : σ → π → Option Bytes
  /-- Where a rename found what is at a place after it -/
  origin : Text → Text → π → Option π
  read_some {path : Text} {files : σ} {data : Bytes} (offset size : UInt64) :
    content files (place path) = some data → inner.read path offset size files = .ok (excerpt data offset.toNat size.toNat)
  read_none {path : Text} {files : σ} (offset size : UInt64) :
    content files (place path) = none → ∃ error, inner.read path offset size files = .error error
  write_elsewhere {path : Text} {files : σ} (data : Bytes) (flags : WriteFlag) :
    SameElsewhere content files (inner.write path data 0 flags files).2 (place path)
  write_whole {path : Text} {files : σ} {data : Bytes} {flags : WriteFlag} : flags.Whole →
    (inner.write path data 0 flags files).1 = .ok data.length → content (inner.write path data 0 flags files).2 (place path) = some data
  write_control {path : Text} {files : σ} {data : Bytes} {flags : WriteFlag} : flags.Whole → isControl path = true →
    (∀ written, (inner.write path data 0 flags files).1 = .ok written → written = data.length) ∧
      ∀ error, (inner.write path data 0 flags files).1 = .error error → content (inner.write path data 0 flags files).2 = content files
  create_ok {path : Text} {files : σ} : (inner.create path files).1 = .ok () →
    content (inner.create path files).2 (place path) = some [] ∧ SameElsewhere content files (inner.create path files).2 (place path)
  create_error {path : Text} {files : σ} {error : Error} :
    (inner.create path files).1 = .error error → content (inner.create path files).2 = content files
  remove_ok {path : Text} {files : σ} : (inner.remove path files).1 = .ok () →
    content (inner.remove path files).2 (place path) = none ∧ SameElsewhere content files (inner.remove path files).2 (place path)
  remove_error {path : Text} {files : σ} {error : Error} :
    (inner.remove path files).1 = .error error → content (inner.remove path files).2 = content files
  rename_ok {oldPath newPath : Text} {files : σ} (other : π) : (inner.rename oldPath newPath files).1 = .ok () →
    content (inner.rename oldPath newPath files).2 other = (origin oldPath newPath other).bind (content files)
  rename_error {oldPath newPath : Text} {files : σ} {error : Error} :
    (inner.rename oldPath newPath files).1 = .error error → content (inner.rename oldPath newPath files).2 = content files
  /-- The source is consumed; the destination holds what it held, whether it was there before or not. -/
  replace_ok {srcPath dstPath : Text} {files : σ} : (inner.replace srcPath dstPath files).1 = .ok () →
    content (inner.replace srcPath dstPath files).2 (place dstPath) = content files (place srcPath) ∧
      ∀ other, other ≠ place srcPath → other ≠ place dstPath → content (inner.replace srcPath dstPath files).2 other = content files other
  replace_error {srcPath dstPath : Text} {files : σ} {error : Error} :
    (inner.replace srcPath dstPath files).1 = .error error → content (inner.replace srcPath dstPath files).2 = content files
  ensure_same (path : Text) (mode : Nat) (files : σ) : content (inner.ensureParentDirs path mode files).2 = content files

end Correct

end LoginomDock.EncryptedFs
