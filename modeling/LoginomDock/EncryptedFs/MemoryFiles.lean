import LoginomDock.EncryptedFs.EncryptionWrapper

/-! A correct file system without directories, in which every write goes through, and a cipher whose tag is the first
half of its key. -/

namespace LoginomDock.EncryptedFs

open List Table

abbrev Files := Table Text Bytes

def tableFiles : FileSystem Files where
  read path offset size files :=
    match files.lookup path with
    | some data => .ok (excerpt data offset.toNat size.toNat)
    | none => .error (.notFound path)
  write path data _ _ files := (.ok data.length, files.insert path data)
  create path files :=
    match files.lookup path with
    | some _ => (.error (.alreadyExists path), files)
    | none => (.ok (), files.insert path [])
  remove path files :=
    match files.lookup path with
    | some _ => (.ok (), files.erase path)
    | none => (.error (.notFound path), files)
  rename oldPath newPath files :=
    match files.lookup oldPath with
    | none => (.error (.notFound oldPath), files)
    | some data =>
      match files.lookup newPath with
      | some _ => (.error (.alreadyExists newPath), files)
      | none => (.ok (), (files.erase oldPath).insert newPath data)
  replace srcPath dstPath files :=
    match files.lookup srcPath with
    | some data => (.ok (), (files.erase srcPath).insert dstPath data)
    | none => (.error (.notFound srcPath), files)
  ensureParentDirs _ _ files := (.ok (), files)

-- Where a renamed file was
def tableOrigin (oldPath newPath place : Text) : Option Text :=
  if place = newPath then some oldPath else if place = oldPath then none else some place

def tableCorrect (isControl : Text → Bool) : Correct tableFiles isControl Text where
  place path := path
  content files path := files.lookup path
  origin := tableOrigin
  read_some := by
    intro path files data offset size found
    simp only [tableFiles, found]
  read_none := by
    intro path files offset size missing
    exact ⟨.notFound path, by simp only [tableFiles, missing]⟩
  write_elsewhere := by
    intro path files data flags other apart
    simp only [tableFiles]
    rw [lookup_insert_if]
    exact if_neg apart
  write_whole := by
    intro path files data flags _ _
    simp only [tableFiles]
    rw [lookup_insert_if]
    exact if_pos rfl
  write_control := by
    intro path files data flags _ _
    refine ⟨fun written ended => ?_, fun error ended => ?_⟩
    · cases ended
      rfl
    · cases ended
  create_ok := by
    intro path files ended
    simp only [tableFiles] at ended ⊢
    cases found : files.lookup path with
    | some _ =>
      rw [found] at ended
      cases ended
    | none =>
      dsimp only
      refine ⟨?_, fun other apart => ?_⟩
      · rw [lookup_insert_if]
        exact if_pos rfl
      · dsimp only
        rw [lookup_insert_if]
        exact if_neg apart
  create_error := by
    intro path files error ended
    simp only [tableFiles] at ended ⊢
    cases found : files.lookup path with
    | some _ => rfl
    | none =>
      rw [found] at ended
      cases ended
  remove_ok := by
    intro path files ended
    simp only [tableFiles] at ended ⊢
    cases found : files.lookup path with
    | none =>
      rw [found] at ended
      cases ended
    | some _ =>
      dsimp only
      refine ⟨?_, fun other apart => ?_⟩
      · rw [lookup_erase_if]
        exact if_pos rfl
      · dsimp only
        rw [lookup_erase_if]
        exact if_neg apart
  remove_error := by
    intro path files error ended
    simp only [tableFiles] at ended ⊢
    cases found : files.lookup path with
    | none => rfl
    | some _ =>
      rw [found] at ended
      cases ended
  rename_ok := by
    intro oldPath newPath files other ended
    simp only [tableFiles] at ended ⊢
    cases found : files.lookup oldPath with
    | none =>
      rw [found] at ended
      cases ended
    | some data =>
      cases free : files.lookup newPath with
      | some _ =>
        rw [found, free] at ended
        cases ended
      | none =>
        dsimp only
        rw [lookup_insert_if, lookup_erase_if, tableOrigin]
        by_cases new : other = newPath
        · rw [if_pos new, if_pos new]
          exact found.symm
        · by_cases old : other = oldPath
          · rw [if_neg new, if_neg new, if_pos old, if_pos old]
            rfl
          · rw [if_neg new, if_neg new, if_neg old, if_neg old]
            rfl
  rename_error := by
    intro oldPath newPath files error ended
    simp only [tableFiles] at ended ⊢
    cases found : files.lookup oldPath with
    | none => rfl
    | some data =>
      cases free : files.lookup newPath with
      | some _ => rfl
      | none =>
        rw [found, free] at ended
        cases ended
  replace_ok := by
    intro srcPath dstPath files ended
    simp only [tableFiles] at ended ⊢
    cases found : files.lookup srcPath with
    | none =>
      rw [found] at ended
      cases ended
    | some data =>
      dsimp only
      refine ⟨?_, fun other notSrc notDst => ?_⟩
      · rw [lookup_insert_if]
        exact if_pos rfl
      · rw [lookup_insert_if, lookup_erase_if]
        exact (if_neg notDst).trans (if_neg notSrc)
  replace_error := by
    intro srcPath dstPath files error ended
    simp only [tableFiles] at ended ⊢
    cases found : files.lookup srcPath with
    | none => rfl
    | some _ =>
      rw [found] at ended
      cases ended
  ensure_same _ _ _ := rfl

def taggingCipher : AesGcm where
  encrypt key _ plaintext := .ok (plaintext ++ key.1.take 16)
  decrypt key _ ciphertext :=
    let length := ciphertext.length - 16
    if ciphertext.drop length = key.1.take 16 then .ok (ciphertext.take length) else .error "tag mismatch"

theorem taggingCipher_lawful : taggingCipher.Lawful where
  decrypt_encrypt := by
    intro key iv plaintext ciphertext made
    cases made
    have tag : (key.1.take 16).length = 16 := by
      rw [length_take, key.2]
      rfl
    have length : (plaintext ++ key.1.take 16).length - 16 = plaintext.length := by
      rw [length_append, tag]
      omega
    simp only [taggingCipher, length]
    rw [drop_left, if_pos rfl, take_left]
  length_encrypt := by
    intro key iv plaintext ciphertext made
    cases made
    have tag : (key.1.take 16).length = 16 := by
      rw [length_take, key.2]
      rfl
    rw [length_append, tag]

end LoginomDock.EncryptedFs
