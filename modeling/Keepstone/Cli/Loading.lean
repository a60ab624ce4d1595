import Keepstone.Lib.Collision
import Keepstone.Lib.Keyed
import Keepstone.Node.Serving
import Mathlib.Data.List.Perm.Basic

/-!
# Loading a directory to serve it (`crates/cli/src/main.rs:655-692`)

`load_store` does not ask for the files it wants: it takes what the system lists, in the order it
lists it, and reads the names. An envelope is any file with the extension `signed`, under whatever
name. A chunk is any file whose stem is a number, whatever its extension, in any directory whose
name is an id in hexadecimal digits of either case. So two files may be read as one chunk, and the
one that is listed last is served. All other code builds the one path `chunks/<id>/<index>.bin`.

Results:
* `splitAtDot_append`, `idOfName_chunksName`, `indexOf_chunkName`: the names that the code writes
  are read;
* `getDrop_loadStore`, `getChunk_loadStore`: what is loaded under an id, and at an index;
* **`holds_loadStore_iff`**: when a drop is loaded as it is under its own paths, in whatever order
  the system lists the files.
-/

namespace Keepstone.Cli

open Keepstone.Lib Keepstone.Crypto Keepstone.Core Keepstone.Store Keepstone.Node

variable (prim : Primitives)

/-! ## Names -/

/-- The name of a file or a directory; it need not be UTF-8. -/
abbrev Name := List UInt8

/-- A name in two at its last dot, as `Path::file_stem` and `Path::extension` do: a name without a
dot has no extension, and neither has one whose only dot is at its start. -/
def splitAtDot (name : Name) : Name × Option Name :=
  let after := name.reverse.takeWhile (· ≠ 0x2E)
  let before := name.reverse.dropWhile (· ≠ 0x2E)
  if before.length ≤ 1 then (name, none) else (before.tail.reverse, some after.reverse)

/-- `Path::file_stem`. -/
def fileStem (name : Name) : Name := (splitAtDot name).1

/-- `Path::extension`. -/
def extension (name : Name) : Option Name := (splitAtDot name).2

/-- The id that the name of a directory under `chunks` is read as. -/
def idOfName (name : Name) : Option DropId :=
  (readText name).bind fun text => (DropId.fromHex (String.ofList text)).toOption

/-- The index that the name of a file is read as. -/
def indexOf (name : Name) : Option UInt32 := (readText (fileStem name)).bind parseU32

/-- `<id>.signed`. -/
def dropName (id : DropId) : Name := utf8 (id.toHex ++ ".signed")

/-- The name of `chunks_dir`. -/
def chunksName (id : DropId) : Name := utf8 id.toHex

/-- `<index>.bin`. -/
def chunkName (index : Nat) : Name := utf8 (toString index ++ ".bin")

/-! ## Loading -/

/-- What the system lists, in its order: names with the bytes of the files. -/
structure Listing where
  /-- The files of `drops`. -/
  drops : List (Name × List UInt8)
  /-- The directories of `chunks`, each with its files. -/
  chunks : List (Name × List (Name × List UInt8))

/-- One turn of the first loop of `load_store`: an envelope is kept under its hash. -/
def loadDrop (store : MemoryStore) (file : Name × List UInt8) : MemoryStore :=
  if (extension file.1).bind readText = some "signed".toList then
    store.putDrop (DropId.of prim file.2) file.2
  else store

/-- One turn of the innermost loop: a chunk is kept if its stem parses as a `u32`. -/
def loadChunk (id : DropId) (store : MemoryStore) (file : Name × List UInt8) : MemoryStore :=
  match indexOf file.1 with
  | some index => store.putChunk id index file.2
  | none => store

/-- One turn of the second loop: the files of a directory whose name is an id. -/
def loadChunks (store : MemoryStore) (directory : Name × List (Name × List UInt8)) :
    MemoryStore :=
  match idOfName directory.1 with
  | some id => directory.2.foldl (loadChunk id) store
  | none => store

/-- `load_store`. -/
def loadStore (listing : Listing) : MemoryStore :=
  listing.chunks.foldl loadChunks (listing.drops.foldl (loadDrop prim) .new)

/-! ## The names that the code writes -/

theorem splitAtDot_append {before after : Name} (hne : before ≠ []) (h : 0x2E ∉ after) :
    splitAtDot (before ++ 0x2E :: after) = (before, some after) := by
  have hreverse : (before ++ 0x2E :: after).reverse =
      after.reverse ++ 0x2E :: before.reverse := by simp
  have hall : ∀ byte ∈ after.reverse, decide (byte ≠ 0x2E) = true := by
    intro byte hbyte
    rw [decide_eq_true_iff]
    rintro rfl
    exact h (List.mem_reverse.mp hbyte)
  have hafter : (after.reverse ++ 0x2E :: before.reverse).takeWhile (fun b => b ≠ 0x2E) =
      after.reverse := by
    rw [List.takeWhile_append_of_pos hall]
    simp
  have hbefore : (after.reverse ++ 0x2E :: before.reverse).dropWhile (fun b => b ≠ 0x2E) =
      0x2E :: before.reverse := by
    rw [List.dropWhile_append_of_pos hall]
    simp
  have hpos := List.length_pos_iff.mpr hne
  unfold splitAtDot
  simp only [hreverse, hafter, hbefore]
  rw [if_neg (by simp; omega)]
  simp

theorem utf8_append (first second : String) :
    utf8 (first ++ second) = utf8 first ++ utf8 second := by
  have happend := textBytes_append first.toList second.toList
  rwa [textBytes, textBytes, textBytes, ← String.toList_append, String.ofList_toList,
    String.ofList_toList, String.ofList_toList] at happend

theorem readText_utf8 (text : String) : readText (utf8 text) = some text.toList := by
  have hread := readText_textBytes text.toList
  rwa [textBytes, String.ofList_toList] at hread

/-- The extension of an envelope is read. -/
theorem extension_dropName (id : DropId) :
    (extension (dropName id)).bind readText = some "signed".toList := by
  have hne : utf8 id.toHex ≠ [] := by
    intro hnil
    have hread := readText_utf8 id.toHex
    rw [hnil] at hread
    have hhex := DropId.fromHex_toHex id
    have hempty : id.toHex = "" := String.toList_injective (Option.some.inj hread).symm
    rw [hempty] at hhex
    exact absurd hhex (by simp [DropId.fromHex, hexDecode, tryBytes])
  have hname : dropName id = utf8 id.toHex ++ 0x2E :: utf8 "signed" := by
    rw [dropName, utf8_append]
    rfl
  rw [extension, hname, splitAtDot_append hne (by decide)]
  exact readText_utf8 "signed"

/-- The directory of a drop's chunks is read as its id. -/
theorem idOfName_chunksName (id : DropId) : idOfName (chunksName id) = some id := by
  unfold idOfName chunksName
  rw [readText_utf8, Option.bind_some, String.ofList_toList, DropId.fromHex_toHex]
  rfl

theorem toList_toString (n : Nat) : (toString n).toList = Nat.toDigits 10 n := by
  show (Nat.repr n).toList = _
  simp [Nat.repr]

/-- A chunk is read as its index. -/
theorem indexOf_chunkName {index : Nat} (h : index < 2 ^ 32) :
    indexOf (chunkName index) = some (UInt32.ofNat index) := by
  have hne : utf8 (toString index) ≠ [] := by
    intro hnil
    have hread := readText_utf8 (toString index)
    rw [hnil, toList_toString] at hread
    exact Nat.toDigits_ne_nil (Option.some.inj hread).symm
  have hname : chunkName index = utf8 (toString index) ++ 0x2E :: utf8 "bin" := by
    rw [chunkName, utf8_append]
    rfl
  rw [indexOf, fileStem, hname, splitAtDot_append hne (by decide)]
  simp only [readText_utf8, toList_toString, Option.bind_some, parseU32_toDigits h]

theorem utf8_inj {first second : String} : utf8 first = utf8 second ↔ first = second := by
  refine ⟨fun h => ?_, congrArg utf8⟩
  have hread := congrArg readText h
  rw [readText_utf8, readText_utf8] at hread
  exact String.toList_injective (Option.some.inj hread)

theorem chunksName_inj {id id' : DropId} : chunksName id = chunksName id' ↔ id = id' := by
  refine ⟨fun h => ?_, congrArg chunksName⟩
  have hid := congrArg idOfName h
  rw [idOfName_chunksName, idOfName_chunksName] at hid
  exact Option.some.inj hid

theorem dropName_inj {id id' : DropId} : dropName id = dropName id' ↔ id = id' := by
  rw [dropName, dropName, utf8_append, utf8_append, List.append_left_inj]
  exact chunksName_inj

theorem chunkName_inj {index index' : Nat} :
    chunkName index = chunkName index' ↔ index = index' := by
  refine ⟨fun h => ?_, congrArg chunkName⟩
  rw [chunkName, chunkName, utf8_append, utf8_append, List.append_left_inj, utf8_inj] at h
  have hdigits := congrArg String.toList h
  rw [toList_toString, toList_toString] at hdigits
  have hvalue := congrArg (fun digits => Nat.ofDigitChars 10 digits 0) hdigits
  simpa only [Nat.ofDigitChars_ten_toDigits] using hvalue

/-! ## What is loaded -/

section Loaded

variable {prim} {listing : Listing} {id : DropId}

/-- What a file of `drops` is loaded as under `id`. -/
def loadedDrop (prim : Primitives) (id : DropId) (file : Name × List UInt8) :
    Option (List UInt8) :=
  if (extension file.1).bind readText = some "signed".toList ∧ DropId.of prim file.2 = id then
    some file.2
  else none

theorem getDrop_loadDrop (store : MemoryStore) (file : Name × List UInt8) :
    (loadDrop prim store file).getDrop id = (loadedDrop prim id file).or (store.getDrop id) := by
  unfold loadDrop loadedDrop
  by_cases hextension : (extension file.1).bind readText = some "signed".toList
  · rw [if_pos hextension, MemoryStore.getDrop_putDrop]
    by_cases hid : DropId.of prim file.2 = id
    · rw [if_pos hid.symm, if_pos ⟨hextension, hid⟩]
      rfl
    · rw [if_neg (Ne.symm hid), if_neg fun h => hid h.2]
      rfl
  · rw [if_neg hextension, if_neg fun h => hextension h.1]
    rfl

/-- A file of a directory of `chunks`: the name of the directory, its name and its bytes. -/
abbrev ChunkFile := Name × Name × List UInt8

/-- All files of the directories of `chunks`, in the order in which they are read. -/
def filesOf (chunks : List (Name × List (Name × List UInt8))) : List ChunkFile :=
  chunks.flatMap fun directory => directory.2.map fun file => (directory.1, file)

/-- What a file of `chunks` is loaded as at `index` of `id`. -/
def loadedChunk (id : DropId) (index : UInt32) (file : ChunkFile) : Option (List UInt8) :=
  if idOfName file.1 = some id ∧ indexOf file.2.1 = some index then some file.2.2 else none

theorem getChunk_loadChunk (id' : DropId) (index : UInt32) (name : Name)
    (hname : idOfName name = some id') (store : MemoryStore) (file : Name × List UInt8) :
    (loadChunk id' store file).getChunk id index =
      (loadedChunk id index (name, file)).or (store.getChunk id index) := by
  unfold loadChunk loadedChunk
  simp only [hname, Option.some_inj]
  cases hindex : indexOf file.1 with
  | none =>
    rw [if_neg fun h => absurd h.2 (Option.some_ne_none index).symm]
    rfl
  | some index' =>
    simp only [MemoryStore.getChunk_putChunk, Option.some_inj, Prod.mk.injEq]
    by_cases hkey : id = id' ∧ index = index'
    · rw [if_pos hkey, if_pos ⟨hkey.1.symm, hkey.2.symm⟩]
      rfl
    · rw [if_neg hkey, if_neg fun h => hkey ⟨h.1.symm, h.2.symm⟩]
      rfl

theorem getChunk_loadChunks (index : UInt32) (store : MemoryStore)
    (directory : Name × List (Name × List UInt8)) :
    (loadChunks store directory).getChunk id index =
      ((directory.2.map fun file => (directory.1, file)).reverse.findSome?
        (loadedChunk id index)).or (store.getChunk id index) := by
  unfold loadChunks
  cases hid : idOfName directory.1 with
  | none =>
    have hnone : (directory.2.map fun file => (directory.1, file)).reverse.findSome?
        (loadedChunk id index) = none := by
      refine List.findSome?_eq_none_iff.mpr fun file hfile => ?_
      obtain ⟨file, -, rfl⟩ := List.mem_map.mp (List.mem_reverse.mp hfile)
      exact if_neg fun h => absurd (hid.symm.trans h.1) (Option.some_ne_none id).symm
    rw [hnone]
    rfl
  | some id' =>
    have hturn := @getChunk_loadChunk id id' index directory.1 hid
    simp only [get_foldl (fun store : MemoryStore => store.getChunk id index) hturn,
      ← List.map_reverse, List.findSome?_map]
    rfl

/-- Loading chunks leaves the envelopes as they are. -/
theorem getDrop_loadChunks (store : MemoryStore) (directory : Name × List (Name × List UInt8)) :
    (loadChunks store directory).getDrop id = store.getDrop id := by
  unfold loadChunks
  cases idOfName directory.1 with
  | none => rfl
  | some id' =>
    refine get_foldl_of_eq (fun store : MemoryStore => store.getDrop id) (fun store file => ?_) _ _
    unfold loadChunk
    cases indexOf file.1 with
    | none => rfl
    | some index => rfl

/-- **What is loaded under an id**: the last file listed that is an envelope with that hash. -/
theorem getDrop_loadStore :
    (loadStore prim listing).getDrop id =
      listing.drops.reverse.findSome? (loadedDrop prim id) := by
  have hdrops := get_foldl (fun store : MemoryStore => store.getDrop id)
    (@getDrop_loadDrop prim id) listing.drops .new
  have hchunks := get_foldl_of_eq (fun store : MemoryStore => store.getDrop id)
    (@getDrop_loadChunks id) listing.chunks (listing.drops.foldl (loadDrop prim) .new)
  exact hchunks.trans (hdrops.trans Option.or_none)

/-- **What is loaded at an index**: the last file listed that is read as that chunk. -/
theorem getChunk_loadStore (index : UInt32) :
    (loadStore prim listing).getChunk id index =
      (filesOf listing.chunks).reverse.findSome? (loadedChunk id index) := by
  have hturn : ∀ (store : MemoryStore) (file : Name × List UInt8),
      (loadDrop prim store file).getChunk id index = store.getChunk id index := by
    intro store file
    unfold loadDrop
    split
    · rfl
    · rfl
  have hdrops := get_foldl_of_eq (fun store : MemoryStore => store.getChunk id index) hturn
    listing.drops .new
  have hchunks := get_foldl (fun store : MemoryStore => store.getChunk id index)
    (getChunk_loadChunks index) listing.chunks (listing.drops.foldl (loadDrop prim) .new)
  rw [filesOf, findSome?_reverse_flatMap]
  exact hchunks.trans ((congrArg _ hdrops).trans Option.or_none)

end Loaded

/-! ## In whatever order -/

/-- The same files, listed in another order: those of each directory, and the directories. -/
def Listing.Reorders (listing order : Listing) : Prop :=
  listing.drops.Perm order.drops ∧ ∃ directories,
    List.Forall₂ (fun d d' => d.1 = d'.1 ∧ d.2.Perm d'.2) listing.chunks directories ∧
      directories.Perm order.chunks

/-- The files that the code has paths for are listed under the names that it gives them. -/
structure Listing.Shows (listing : Listing) (dir : Dir) : Prop where
  drops : ∀ id raw, (dropName id, raw) ∈ listing.drops ↔ dir.lookup (.drop id) = some raw
  chunks : ∀ id index data,
    (∃ files, (chunksName id, files) ∈ listing.chunks ∧ (chunkName index, data) ∈ files) ↔
      dir.lookup (.chunk id index) = some data

/-- Whatever is read as the envelope `raw` of `id`, or as one of its first `count` chunks, has the
bytes of that file itself. -/
structure Listing.Unaliased (listing : Listing) (dir : Dir) (id : DropId) (raw : List UInt8)
    (count : Nat) : Prop where
  envelope : ∀ file ∈ listing.drops, (extension file.1).bind readText = some "signed".toList →
    DropId.of prim file.2 = id → file.2 = raw
  chunks : ∀ directory ∈ listing.chunks, idOfName directory.1 = some id → ∀ file ∈ directory.2,
    ∀ index < count, indexOf file.1 = some (UInt32.ofNat index) →
      dir.lookup (.chunk id index) = some file.2

/-- A store holds an envelope, and its first `count` chunks as a directory has them. -/
structure HoldsAs (store : MemoryStore) (dir : Dir) (id : DropId) (raw : List UInt8)
    (count : Nat) : Prop where
  envelope : store.getDrop id = some raw
  chunks : ∀ index < count, store.getChunk id (UInt32.ofNat index) = dir.lookup (.chunk id index)

section Orders

variable {prim} {listing order : Listing} {dir : Dir} {id : DropId} {raw : List UInt8} {count : Nat}

theorem mem_filesOf {chunks : List (Name × List (Name × List UInt8))} {file : ChunkFile} :
    file ∈ filesOf chunks ↔ ∃ directory ∈ chunks, directory.1 = file.1 ∧ file.2 ∈ directory.2 := by
  obtain ⟨name, file⟩ := file
  simp only [filesOf, List.mem_flatMap, List.mem_map, Prod.mk.injEq]
  refine exists_congr fun directory => and_congr_right fun _ => ?_
  constructor
  · rintro ⟨file, hfile, hname, rfl⟩
    exact ⟨hname, hfile⟩
  · rintro ⟨hname, hfile⟩
    exact ⟨file, hfile, hname, rfl⟩

/-- Another order has the same files. -/
theorem Listing.Reorders.mem_filesOf_iff (h : listing.Reorders order) {file : ChunkFile} :
    file ∈ filesOf order.chunks ↔ file ∈ filesOf listing.chunks := by
  obtain ⟨-, directories, hall, hperm⟩ := h
  have hsame : file ∈ filesOf order.chunks ↔ file ∈ filesOf directories := by
    simp only [mem_filesOf, hperm.mem_iff]
  rw [hsame, mem_filesOf, mem_filesOf]
  clear hsame hperm
  generalize listing.chunks = chunks at hall
  induction hall with
  | nil => rfl
  | cons hfirst _ ih => simp only [List.exists_mem_cons_iff, ih, hfirst.1, hfirst.2.mem_iff]

/-- The chunks may be listed so that one of them comes last. -/
theorem exists_reorders_last {directory : Name × List (Name × List UInt8)}
    (hdirectory : directory ∈ listing.chunks) {file : Name × List UInt8}
    (hfile : file ∈ directory.2) : ∃ order first, listing.Reorders order ∧
      filesOf order.chunks = first ++ [(directory.1, file)] := by
  obtain ⟨before, after, hchunks⟩ := List.append_of_mem hdirectory
  obtain ⟨first, rest, hfiles⟩ := List.append_of_mem hfile
  have hlast : directory.2.Perm (first ++ rest ++ [file]) := by
    rw [hfiles]
    exact List.perm_middle.trans (List.perm_append_singleton file (first ++ rest)).symm
  have hrefl : ∀ directories : List (Name × List (Name × List UInt8)),
      List.Forall₂ (fun d d' => d.1 = d'.1 ∧ d.2.Perm d'.2) directories directories :=
    fun directories => List.forall₂_same.mpr fun _ _ => ⟨rfl, .rfl⟩
  refine ⟨⟨listing.drops, before ++ after ++ [(directory.1, first ++ rest ++ [file])]⟩,
    filesOf (before ++ after) ++ (first ++ rest).map fun file => (directory.1, file),
    ⟨.rfl, before ++ (directory.1, first ++ rest ++ [file]) :: after, ?_, ?_⟩, ?_⟩
  · rw [hchunks]
    exact List.rel_append (hrefl before) (.cons ⟨rfl, hlast⟩ (hrefl after))
  · exact List.perm_middle.trans (List.perm_append_singleton _ (before ++ after)).symm
  · simp [filesOf]

/-- **A drop is loaded as it is, in whatever order the files are listed, exactly when nothing else
is read as a part of it.** -/
theorem holds_loadStore_iff (hshows : listing.Shows dir)
    (hraw : dir.lookup (.drop id) = some raw) (haddress : DropId.of prim raw = id)
    (hcount : count ≤ 2 ^ 32)
    (hchunks : ∀ index < count, ∃ data, dir.lookup (.chunk id index) = some data) :
    (∀ order, listing.Reorders order → HoldsAs (loadStore prim order) dir id raw count) ↔
      listing.Unaliased prim dir id raw count := by
  have henvelope : (dropName id, raw) ∈ listing.drops := (hshows.drops id raw).mpr hraw
  have hset : loadedDrop prim id (dropName id, raw) = some raw :=
    if_pos ⟨extension_dropName id, haddress⟩
  constructor
  · intro horders
    constructor
    · intro file hfile hextension hid
      have hall := (findSome?_reverse_perm_iff henvelope hset).mp fun drops hperm => ?_
      · exact hall file hfile file.2 (if_pos ⟨hextension, hid⟩)
      · have horder : listing.Reorders ⟨drops, listing.chunks⟩ :=
          ⟨hperm, listing.chunks, List.forall₂_same.mpr fun _ _ => ⟨rfl, .rfl⟩, .rfl⟩
        have hheld := (horders _ horder).envelope
        rwa [getDrop_loadStore] at hheld
    · intro directory hdirectory hid file hfile index hindex hread
      obtain ⟨order, first, horder, hfiles⟩ := exists_reorders_last hdirectory hfile
      have hlast : loadedChunk id (UInt32.ofNat index) (directory.1, file) = some file.2 :=
        if_pos ⟨hid, hread⟩
      rw [← (horders order horder).chunks index hindex, getChunk_loadStore, hfiles,
        findSome?_reverse_concat hlast]
  · rintro ⟨hdrops, hfiles⟩ order horder
    constructor
    · rw [getDrop_loadStore]
      refine findSome?_reverse_of_forall (horder.1.mem_iff.mp henvelope) hset ?_
      intro file hfile other hother
      unfold loadedDrop at hother
      split_ifs at hother with hread
      rw [← Option.some.inj hother]
      exact hdrops file (horder.1.mem_iff.mpr hfile) hread.1 hread.2
    · intro index hindex
      obtain ⟨data, hdata⟩ := hchunks index hindex
      obtain ⟨files, hdirectory, hfile⟩ := (hshows.chunks id index data).mpr hdata
      have hmem : (chunksName id, chunkName index, data) ∈ filesOf order.chunks :=
        horder.mem_filesOf_iff.mpr (mem_filesOf.mpr ⟨_, hdirectory, rfl, hfile⟩)
      have hread : loadedChunk id (UInt32.ofNat index) (chunksName id, chunkName index, data) =
          some data := if_pos ⟨idOfName_chunksName id, indexOf_chunkName (hindex.trans_le hcount)⟩
      rw [getChunk_loadStore, hdata]
      refine findSome?_reverse_of_forall hmem hread ?_
      intro other hother bytes hbytes
      obtain ⟨directory, hdirectory, hname, hfile⟩ :=
        mem_filesOf.mp (horder.mem_filesOf_iff.mp hother)
      unfold loadedChunk at hbytes
      split_ifs at hbytes with hread
      rw [← Option.some.inj hbytes]
      have hsame := hfiles directory hdirectory (hname ▸ hread.1) other.2 hfile index hindex hread.2
      exact Option.some.inj (hsame.symm.trans hdata)

end Orders

end Keepstone.Cli
