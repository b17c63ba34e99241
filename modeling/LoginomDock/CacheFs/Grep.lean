import LoginomDock.CacheFs.Wrapper
import LoginomDock.Library.Stateful

namespace LoginomDock.CacheFs

structure GrepMatch where
  file : Text
  line : Nat
  content : Text
  deriving DecidableEq

structure GrepResult where
  found : List GrepMatch
  count : Nat
  deriving DecidableEq

def GrepResult.new : GrepResult where
  found := []
  count := 0

def GrepResult.push (result : GrepResult) (item : GrepMatch) : GrepResult where
  found := result.found ++ [item]
  count := result.count + 1

def normalizePrefixPath (path : Text) : Text := if path = ['/'] then ['/'] else path.rdropWhile (· = '/')

def stripPrefix (lead text : Text) : Option Text := if lead <+: text then some (text.drop lead.length) else none

def isExcludedPath (path excludePath : Text) : Bool :=
  if excludePath = ['/'] then true
  else path = excludePath || (stripPrefix excludePath path).any fun suffix => suffix.head? = some '/'

def relativeMatchFile (queryRoot path : Text) : Text :=
  let base := normalizePrefixPath queryRoot
  if path = base then ['.']
  else if base = ['/'] then path.dropWhile (· = '/')
  else
    match stripPrefix base path with
    | some rest =>
      let rel := rest.dropWhile (· = '/')
      if rel = [] then ['.'] else rel
    | none => path.dropWhile (· = '/')

def relativeDepth (rel : Text) : Nat :=
  if rel = [] ∨ rel = ['.'] then 0 else ((Text.components rel).filter (· ≠ [])).length

def entryPath (currentPath name : Text) : Text :=
  if currentPath = ['/'] then '/' :: name else currentPath ++ '/' :: name

-- How many bytes follow a lead byte, and between which bounds the first of them is
def leadShape (lead : Nat) : Option (Nat × Nat × Nat) :=
  if 0xC2 ≤ lead ∧ lead ≤ 0xDF then some (1, 0x80, 0xBF)
  else if lead = 0xE0 then some (2, 0xA0, 0xBF)
  else if lead = 0xED then some (2, 0x80, 0x9F)
  else if 0xE1 ≤ lead ∧ lead ≤ 0xEF then some (2, 0x80, 0xBF)
  else if lead = 0xF0 then some (3, 0x90, 0xBF)
  else if 0xF1 ≤ lead ∧ lead ≤ 0xF3 then some (3, 0x80, 0xBF)
  else if lead = 0xF4 then some (3, 0x80, 0x8F)
  else none

def takeContinuation : Nat → Nat → Nat → FileData → List Nat
  | count + 1, low, high, byte :: rest =>
    if low ≤ byte.toNat ∧ byte.toNat ≤ high then byte.toNat :: takeContinuation count 0x80 0xBF rest else []
  | _, _, _, _ => []

def decodeLead (lead : Nat) (rest : FileData) : Char × Nat :=
  if lead < 0x80 then (Char.ofNat lead, 0)
  else
    match leadShape lead with
    | none => (Char.ofNat 0xFFFD, 0)
    | some (count, low, high) =>
      let more := takeContinuation count low high rest
      if more.length = count then
        (Char.ofNat (more.foldl (fun value byte => value * 64 + byte % 64) (lead % 2 ^ (6 - count))), count)
      else (Char.ofNat 0xFFFD, more.length)

def decodeLossy : Nat → FileData → Text
  | fuel + 1, lead :: rest =>
    let (char, used) := decodeLead lead.toNat rest
    char :: decodeLossy fuel (rest.drop used)
  | _, _ => []

def fromUtf8Lossy (content : FileData) : Text := decodeLossy content.length content

def rustLines : Text → List Text
  | [] => []
  | '\n' :: rest => [] :: rustLines rest
  | '\r' :: '\n' :: rest => [] :: rustLines rest
  | char :: rest =>
    match rustLines rest with
    | [] => [[char]]
    | line :: lines => (char :: line) :: lines

structure RegexLib (ε : Type) where
  compile : Text → Except Text (Text → Bool)
  invalidOperation : Text → ε

def RegexLib.compileGrepRegex {ε : Type} (regex : RegexLib ε) (pattern : Text) (caseInsensitive : Bool) : Except ε (Text → Bool) :=
  match regex.compile (if caseInsensitive then "(?i)" ++ pattern else pattern) with
  | .ok isMatch => .ok isMatch
  | .error message => .error (regex.invalidOperation ("Invalid regex pattern: " ++ message))

structure GrepQuery where
  basePath : Text
  isMatch : Text → Bool
  recursive : Bool
  nodeLimit : Option Nat
  excludePath : Option Text
  levelLimit : Option Nat

namespace GrepQuery

variable (query : GrepQuery)

def full (result : GrepResult) : Bool := query.nodeLimit.any fun limit => decide (limit ≤ result.count)

def excluded (path : Text) : Bool := query.excludePath.any (isExcludedPath path)

def depth (path : Text) : Nat := relativeDepth (relativeMatchFile query.basePath path)

def skipsDirectory (path : Text) : Bool :=
  (!query.recursive && path ≠ query.basePath) || query.levelLimit.any fun limit => decide (limit ≤ query.depth path)

def skipsFile (path : Text) : Bool := query.levelLimit.any fun limit => decide (limit < query.depth path)

def addLines (relFile : Text) : List (Nat × Text) → GrepResult → GrepResult
  | [], result => result
  | (lineNum, line) :: rest, result =>
    if query.full result then result
    else if query.isMatch line then
      addLines relFile rest (result.push { file := relFile, line := lineNum + 1, content := line })
    else addLines relFile rest result

def numberedLines (content : FileData) : List (Nat × Text) := (rustLines (fromUtf8Lossy content)).zipIdx.map Prod.swap

end GrepQuery

structure GrepBackend (ε : Type) where
  stat : Text → Except ε FileInfo
  readDir : Text → Except ε (List FileInfo)
  read : Text → Except ε FileData

namespace GrepBackend

variable {ε : Type} (backend : GrepBackend ε) (query : GrepQuery)

def grepFile (path : Text) (result : GrepResult) : Except ε GrepResult :=
  if query.full result then .ok result
  else
    match backend.read path with
    | .error error => .error error
    | .ok content =>
      .ok (query.addLines (relativeMatchFile query.basePath path) (GrepQuery.numberedLines content) result)

def grepEntries (visit : Text → GrepResult → Option (Except ε GrepResult)) (currentPath : Text) :
    List FileInfo → GrepResult → Option (Except ε GrepResult)
  | [], result => some (.ok result)
  | entry :: rest, result =>
    if query.full result then some (.ok result)
    else
      match visit (entryPath currentPath entry.name) result with
      | some (.ok next) => grepEntries visit currentPath rest next
      | answer => answer

-- `fuel` bounds how deep the recursion goes.
def grepInternal : Nat → Text → GrepResult → Option (Except ε GrepResult)
  | 0, _, _ => none
  | fuel + 1, currentPath, result =>
    if query.full result then some (.ok result)
    else if query.excluded currentPath then some (.ok result)
    else
      match backend.stat currentPath with
      | .error error => some (.error error)
      | .ok info =>
        if info.isDir then
          if query.skipsDirectory currentPath then some (.ok result)
          else
            match backend.readDir currentPath with
            | .error error => some (.error error)
            | .ok entries => grepEntries query (grepInternal fuel) currentPath entries result
        else if query.skipsFile currentPath then some (.ok result)
        else some (backend.grepFile query currentPath result)

end GrepBackend

def grepCacheFileConcurrency : Nat := 8

-- The wrapper's calls, and the order in which the reads of a batch come to an end
structure CacheReader (σ ε : Type) where
  stat : Text → StateM σ (Except ε FileInfo)
  readDirWithGenerationCache : Text → StateM σ (Except ε (List FileInfo))
  readWithGenerationCache : Text → StateM σ (Except ε FileData)
  completed : Nat → StateM σ (List Nat)

structure GrepVisit where
  path : Text
  isDir : Option Bool

namespace CacheReader

variable {σ ε : Type} (reader : CacheReader σ ε) (query : GrepQuery)

def matchLines (isMatch : Text → Bool) (relFile : Text) (remainingLimit : Option Nat) : List (Nat × Text) → List GrepMatch → List GrepMatch
  | [], found => found
  | (lineNum, line) :: rest, found =>
    if remainingLimit.any fun limit => decide (limit ≤ found.length) then found
    else if isMatch line then
      matchLines isMatch relFile remainingLimit rest (found ++ [{ file := relFile, line := lineNum + 1, content := line }])
    else matchLines isMatch relFile remainingLimit rest found

def grepCachedFile (path : Text) (remainingLimit : Option Nat) : StateM σ (Except ε (List GrepMatch)) := do
  match ← reader.readWithGenerationCache path with
  | .error error => return .error error
  | .ok content =>
    return .ok (matchLines query.isMatch (relativeMatchFile query.basePath path) remainingLimit
      (GrepQuery.numberedLines content) [])

def grepInOrder (files : List Text) (remainingLimit : Option Nat) :
    List Nat → StateM σ (List (Nat × Except ε (List GrepMatch)))
  | [] => return []
  | index :: order => do
      match files[index]? with
      | none => grepInOrder files remainingLimit order
      | some path =>
        let found ← reader.grepCachedFile query path remainingLimit
        let others ← grepInOrder files remainingLimit order
        return (index, found) :: others

-- The items of one file; none when the limit came before one of them
def pushItems : List GrepMatch → GrepResult → GrepResult × Bool
  | [], result => (result, false)
  | item :: rest, result => if query.full result then (result, true) else pushItems rest (result.push item)

def pushFiles : List (Nat × Except ε (List GrepMatch)) → GrepResult → Except ε GrepResult
  | [], result => .ok result
  | (_, .error error) :: _, _ => .error error
  | (_, .ok items) :: rest, result =>
    match pushItems query items result with
    | (after, true) => .ok after
    | (after, false) => pushFiles rest after

-- A limit that is not there leaves `usize::MAX` matches, more than there are lines in a file.
def flushGrepFileBatch (fileBatch : List Text) (result : GrepResult) : StateM σ (Except ε GrepResult) := do
  if fileBatch = [] ∨ query.full result then return .ok result
  else
    let remainingLimit := query.nodeLimit.map fun limit => limit - result.count
    let order ← reader.completed fileBatch.length
    let indexed ← reader.grepInOrder query fileBatch remainingLimit order
    return pushFiles query (indexed.mergeSort fun first second => decide (first.1 ≤ second.1)) result

def pushEntries (currentPath : Text) (entries : List FileInfo) (stack : List GrepVisit) : List GrepVisit :=
  entries.reverse.foldl
    (fun above entry => { path := entryPath currentPath entry.name, isDir := some entry.isDir } :: above) stack

def isDirectory (visit : GrepVisit) : StateM σ (Except ε Bool) :=
  match visit.isDir with
  | some isDir => return .ok isDir
  | none => do
      match ← reader.stat visit.path with
      | .error error => return .error error
      | .ok info => return .ok info.isDir

-- `fuel` bounds how often the loop goes round.
def visitAll : Nat → List GrepVisit → List Text → GrepResult → StateM σ (Option (Except ε GrepResult))
  | 0, _, _, _ => return none
  | _ + 1, [], fileBatch, result => do return some (← reader.flushGrepFileBatch query fileBatch result)
  | fuel + 1, visit :: stack, fileBatch, result => do
      if query.full result then return some (← reader.flushGrepFileBatch query fileBatch result)
      else if query.excluded visit.path then visitAll fuel stack fileBatch result
      else
        match ← reader.isDirectory visit with
        | .error error => return some (.error error)
        | .ok true =>
          match ← reader.flushGrepFileBatch query fileBatch result with
          | .error error => return some (.error error)
          | .ok after =>
            if query.full after then return some (← reader.flushGrepFileBatch query [] after)
            else if query.skipsDirectory visit.path then visitAll fuel stack [] after
            else
              match ← reader.readDirWithGenerationCache visit.path with
              | .error error => return some (.error error)
              | .ok entries => visitAll fuel (pushEntries visit.path entries stack) [] after
        | .ok false =>
          if query.skipsFile visit.path then visitAll fuel stack fileBatch result
          else if grepCacheFileConcurrency ≤ (fileBatch ++ [visit.path]).length then
            match ← reader.flushGrepFileBatch query (fileBatch ++ [visit.path]) result with
            | .error error => return some (.error error)
            | .ok after => visitAll fuel stack [] after
          else visitAll fuel stack (fileBatch ++ [visit.path]) result

end CacheReader

structure GrepRequest where
  path : Text
  pattern : Text
  recursive : Bool
  caseInsensitive : Bool
  nodeLimit : Option Nat
  excludePath : Option Text
  levelLimit : Option Nat

def GrepRequest.query (request : GrepRequest) (isMatch : Text → Bool) : GrepQuery where
  basePath := normalizePrefixPath request.path
  isMatch := isMatch
  recursive := request.recursive
  nodeLimit := request.nodeLimit
  excludePath := request.excludePath.map normalizePrefixPath
  levelLimit := request.levelLimit

def GrepBackend.grep {ε : Type} (backend : GrepBackend ε) (regex : RegexLib ε) (request : GrepRequest) (fuel : Nat) :
    Option (Except ε GrepResult) :=
  match regex.compileGrepRegex request.pattern request.caseInsensitive with
  | .error error => some (.error error)
  | .ok isMatch => backend.grepInternal (request.query isMatch) fuel (normalizePrefixPath request.path) .new

def CacheReader.grepViaCache {σ ε : Type} (reader : CacheReader σ ε) (regex : RegexLib ε) (request : GrepRequest) (fuel : Nat) :
    StateM σ (Option (Except ε GrepResult)) :=
  match regex.compileGrepRegex request.pattern request.caseInsensitive with
  | .error error => return some (.error error)
  | .ok isMatch =>
    reader.visitAll (request.query isMatch) fuel [{ path := normalizePrefixPath request.path, isDir := none }] [] .new

end LoginomDock.CacheFs
