import LoginomDock.Library.Text

namespace LoginomDock.VectorIndex

inductive TrieNode where
  | node (segment : Text) (isLeaf : Bool) (bound : List Text) (children : List TrieNode)

def splitPath (path : Text) : List Text := (Text.components path).filter (· ≠ [])

namespace TrieNode

def segment : TrieNode → Text
  | node segment _ _ _ => segment

def root : TrieNode := node [] false [] []

def bindLeafBitmap (bound : List Text) (key : Text) : List Text := if key ∈ bound then bound else bound ++ [key]

def updateChild (segment : Text) (change : TrieNode → TrieNode) : List TrieNode → List TrieNode
  | [] => [change (node segment false [] [])]
  | child :: rest =>
    if child.segment = segment then change child :: rest else child :: updateChild segment change rest

def addAt (key : Text) : List Text → TrieNode → TrieNode
  | [], node segment _ bound children => node segment true (bindLeafBitmap bound key) children
  | name :: rest, node segment isLeaf bound children =>
    node segment isLeaf bound (updateChild name (addAt key rest) children)

def addKey (trie : TrieNode) (key : Text) : TrieNode := addAt key (splitPath key) trie

def findAt : List Text → TrieNode → Option TrieNode
  | [], found => some found
  | name :: rest, node _ _ _ children => (children.find? fun child => child.segment = name).bind (findAt rest)

def findNode (trie : TrieNode) (path : Text) : Option TrieNode := findAt (splitPath path) trie

mutual

def collectBitmaps (maxDepth : Int) (currentDepth : Nat) : TrieNode → List Text
  | node _ isLeaf bound children =>
    (if isLeaf then bound else []) ++
      (if maxDepth ≠ -1 ∧ maxDepth ≤ currentDepth then []
      else collectChildren maxDepth (currentDepth + 1) children)

def collectChildren (maxDepth : Int) (currentDepth : Nat) : List TrieNode → List Text
  | [] => []
  | child :: rest => collectBitmaps maxDepth currentDepth child ++ collectChildren maxDepth currentDepth rest

end

def getMergedBitmaps (trie : TrieNode) (pathPrefix : Text) (depth : Int) : List Text :=
  match trie.findNode pathPrefix with
  | none => []
  | some start => collectBitmaps depth 0 start

end TrieNode

end LoginomDock.VectorIndex
