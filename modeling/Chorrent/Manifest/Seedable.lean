/-
# What can be seeded can be fetched

A manifest that was made of something on disk, or of a stream, passes every check of a
downloader who holds the seeder's share code, except perhaps one: nothing keeps the encoded
manifest below the size that a downloader accepts.
-/
import Chorrent.Manifest.FromDisk

namespace Chorrent

open Lib

/-! ## The length of an encoded manifest -/

/-- A string of a manifest takes its length and its UTF-8 bytes. -/
def stringLength (text : String) : ℕ :=
  Codec.varintLength 10 text.toByteArray.size + text.toByteArray.size

/-- A file of a manifest takes its path, its size and 32 bytes of root hash. -/
def entryLength (path : List String) (size : ℕ) : ℕ :=
  Codec.varintLength 10 path.length + (path.map stringLength).sum + Codec.varintLength 10 size + 32

/-- The length of the encoded manifest of files with these paths and sizes. -/
def manifestLength (name : String) (files : List (List String × ℕ)) : ℕ :=
  1 + stringLength name + Codec.varintLength 10 files.length +
    (files.map fun file => entryLength file.1 file.2).sum

lemma length_flatMap {α : Type} (encode : α → Bytes) (length : α → ℕ)
    (h : ∀ a, (encode a).length = length a) (l : List α) :
    (l.flatMap encode).length = (l.map length).sum := by
  rw [List.length_flatMap]
  exact congrArg List.sum (List.map_congr_left fun a _ => h a)

lemma length_le_sum {α : Type} (length : α → ℕ) (h : ∀ a, 0 < length a) (l : List α) :
    l.length ≤ (l.map length).sum := by
  induction l with
  | nil => exact le_rfl
  | cons a l ih =>
    have := h a
    rw [List.length_cons, List.map_cons, List.sum_cons]
    omega

lemma le_sum_of_mem {α : Type} (length : α → ℕ) {l : List α} {a : α} (ha : a ∈ l) :
    length a ≤ (l.map length).sum :=
  List.single_le_sum (fun _ _ => Nat.zero_le _) _ (List.mem_map_of_mem ha)

lemma length_encode_string (text : String) :
    (Codec.string.encode text).length = stringLength text := by
  rw [stringLength, ← Codec.length_putVarint]
  exact List.length_append

lemma stringLength_pos (text : String) : 0 < stringLength text :=
  Nat.add_pos_left (Codec.varintLength_pos _ _) _

namespace Manifest

variable {m : Manifest ShareId}

lemma length_encode_entry (file : FileEntry ShareId) :
    ((FileEntry.codec (.array 32)).encode file).length = entryLength file.path file.size := by
  show (Codec.varint.encode file.path.length ++ file.path.flatMap Codec.string.encode ++
    (Codec.varint.encode file.size ++ file.rootHash.toList)).length = _
  have hpath := length_flatMap _ _ length_encode_string file.path
  have hcount : (Codec.varint.encode file.path.length).length =
      Codec.varintLength 10 file.path.length := Codec.length_putVarint _ _
  have hsize : (Codec.varint.encode file.size).length = Codec.varintLength 10 file.size :=
    Codec.length_putVarint _ _
  simp only [List.length_append, hpath, hcount, hsize, List.Vector.toList_length, entryLength,
    Nat.add_assoc]

lemma length_encode (m : Manifest ShareId) :
    (m.encode (.array 32)).length =
      manifestLength m.name (m.files.map fun file => (file.path, file.size)) := by
  show (version :: (Codec.string.encode m.name ++ (Codec.varint.encode m.files.length ++
    m.files.flatMap (FileEntry.codec (.array 32)).encode))).length = _
  have hfiles := length_flatMap _ _ length_encode_entry m.files
  have hcount : (Codec.varint.encode m.files.length).length =
      Codec.varintLength 10 m.files.length := Codec.length_putVarint _ _
  simp only [List.length_cons, List.length_append, length_encode_string, hfiles, hcount,
    manifestLength, List.length_map, List.map_map, Function.comp_def]
  omega

/-- What is encoded in less than 2⁶⁴ bytes fits the formats. -/
lemma fits_of_length {Hash : Type} {hash : Codec Hash} {m : Manifest Hash}
    (hhash : ∀ h, hash.Fits h) (h : (m.encode hash).length < 2 ^ 64) : (codec hash).Fits m := by
  have hstring : ∀ text, (Codec.string.encode text).length < 2 ^ 64 → Codec.string.Fits text := by
    intro text hlt
    rw [length_encode_string] at hlt
    exact Nat.lt_of_le_of_lt (Nat.le_add_left _ _) hlt
  have hentry : ∀ file : FileEntry Hash, 0 < ((FileEntry.codec hash).encode file).length := by
    intro file
    have hpos : 0 < (Codec.varint.encode file.path.length).length := by
      rw [show Codec.varint.encode = Codec.putVarint 10 from rfl, Codec.length_putVarint]
      exact Codec.varintLength_pos _ _
    show 0 < (Codec.varint.encode file.path.length ++ file.path.flatMap Codec.string.encode ++
      (Codec.varint.encode file.size ++ hash.encode file.rootHash)).length
    simp only [List.length_append]
    omega
  have h : (version :: (Codec.string.encode m.name ++ (Codec.varint.encode m.files.length ++
      m.files.flatMap (FileEntry.codec hash).encode))).length < 2 ^ 64 := h
  simp only [List.length_cons, List.length_append] at h
  have hname : (Codec.string.encode m.name).length < 2 ^ 64 := by omega
  have hfiles : (m.files.flatMap (FileEntry.codec hash).encode).length < 2 ^ 64 := by omega
  rw [List.length_flatMap] at hfiles
  refine ⟨hstring _ hname, ?_, fun file hfile => ?_⟩
  · exact Nat.lt_of_le_of_lt (length_le_sum _ hentry m.files) hfiles
  · have hfile := Nat.lt_of_le_of_lt
      (le_sum_of_mem (fun file => ((FileEntry.codec hash).encode file).length) hfile) hfiles
    have hfile : (Codec.varint.encode file.path.length ++ file.path.flatMap Codec.string.encode ++
      (Codec.varint.encode file.size ++ hash.encode file.rootHash)).length < 2 ^ 64 := hfile
    simp only [List.length_append, List.length_flatMap] at hfile
    have hpath : (file.path.map fun text => (Codec.string.encode text).length).sum < 2 ^ 64 := by
      omega
    refine ⟨⟨?_, fun text htext => hstring text ?_⟩, file.size_lt, hhash _⟩
    · refine Nat.lt_of_le_of_lt (length_le_sum _ (fun text => ?_) file.path) hpath
      rw [length_encode_string]
      exact stringLength_pos text
    · exact Nat.lt_of_le_of_lt
        (le_sum_of_mem (fun text => (Codec.string.encode text).length) htext) hpath

/-! ## The downloader's checks -/

variable {Hash : Type} {toLowercase : String → String} {name : String}

/-- What the seeder checked about the paths is what the downloader checks. -/
lemma validateFiles_of_checkUnique (found : List (List String × DiskNames)) :
    ∀ (files : List (FileEntry Hash)) (seen : List (List String)),
      files.map FileEntry.path = found.map Prod.fst →
      (∀ file ∈ found, Continues [name] file.1) → nameProblem name = none →
      checkUnique toLowercase found seen = .ok () →
      validateFiles toLowercase name files seen = .ok () := by
  induction found with
  | nil =>
    intro files seen hpaths _ _ _
    obtain rfl : files = [] := List.map_eq_nil_iff.1 hpaths
    rfl
  | cons head found ih =>
    intro files seen hpaths hcontinues hname hunique
    obtain ⟨components, path⟩ := head
    obtain ⟨file, files, rfl, rfl, hrest⟩ := List.map_eq_cons_iff.1 hpaths
    obtain ⟨names, hnames, hportable⟩ := hcontinues _ List.mem_cons_self
    simp only at hnames
    rw [checkUnique] at hunique
    split_ifs at hunique with hseen
    have hfind : (file.path.findSome? fun c => (nameProblem c).map fun why => (c, why)) = none := by
      rw [List.findSome?_eq_none_iff, hnames]
      intro c hc
      rcases List.mem_append.1 hc with hc | hc
      · rw [List.mem_singleton.1 hc, hname]
        rfl
      · rw [hportable c hc]
        rfl
    rw [validateFiles, if_neg (by simp [hnames]), hfind]
    simp only [hseen, if_false]
    exact ih files _ hrest (fun file hfile => hcontinues file (List.mem_cons_of_mem _ hfile))
      hname hunique

/-- What the downloader checks about the paths is enough for the seeder. -/
lemma checkUnique_of_validateFiles (found : List (List String × DiskNames)) :
    ∀ (files : List (FileEntry Hash)) (seen : List (List String)),
      files.map FileEntry.path = found.map Prod.fst →
      validateFiles toLowercase name files seen = .ok () →
      checkUnique toLowercase found seen = .ok () := by
  induction found with
  | nil => exact fun _ _ _ _ => rfl
  | cons head found ih =>
    intro files seen hpaths hvalid
    obtain ⟨components, path⟩ := head
    obtain ⟨file, files, rfl, rfl, hrest⟩ := List.map_eq_cons_iff.1 hpaths
    rw [validateFiles] at hvalid
    split_ifs at hvalid
    split at hvalid
    · cases hvalid
    · dsimp only at hvalid
      split_ifs at hvalid with hseen
      rw [checkUnique, if_neg hseen]
      exact ih files _ hrest hvalid

variable {Data σ : Type} {metadata : DiskNames → IoResult ℕ}
  {ingest : ℕ → DiskNames → ℕ → σ → σ × Result (Data × FileOutboard Hash)} {made : Manifest Hash}

/-- How a manifest made of what is on disk comes about. -/
lemma fromDisk_eq_ok {rootName : Option Bytes} {label : Option String} {tree : Tree} {s s' : σ}
    {hashed : List (Data × FileOutboard Hash)}
    (h : fromDisk toLowercase rootName label tree metadata ingest s = (s', .ok (made, hashed))) :
    shareName rootName label = .ok made.name ∧ ∃ found, collect [] [made.name] tree = .ok found ∧
      checkUnique toLowercase found [] = .ok () ∧
      made.files.map FileEntry.path = found.map Prod.fst ∧
      made.files.map FileEntry.size = hashed.map fun file => file.2.1.size := by
  obtain ⟨hname, found, files, hfound, hunique, hfiles, hm, rfl⟩ := fromDisk_iff.1 h
  obtain ⟨hpaths, hsizes⟩ := ingestFiles_eq_ok _ _ _ _ _ hfiles
  refine ⟨hname, found, hfound, hunique, ?_, ?_⟩
  · rw [hm, List.map_map]
    exact hpaths
  · rw [hm, List.map_map, List.map_map]
    exact hsizes

/-- The share code a seeder hands out, as far as it describes the content. -/
def shareCode (idOf : List UInt8 → ShareId) (m : Manifest ShareId) : ShareCode ShareId where
  id := idOf (m.encode (.array 32))
  name := m.name
  totalSize := (Release.totalSize m).value
  totalSize_lt := Wrapping.value_sum_lt _ 0 (by decide)

/-- A manifest whose paths passed the seeder's check is fetched exactly if it is small enough. -/
lemma fetchManifest_shareCode_iff (idOf : List UInt8 → ShareId)
    (hvalid : m.validate toLowercase = .ok ()) :
    fetchManifest toLowercase idOf (.array 32) (m.shareCode idOf)
        (.manifest (m.encode (.array 32))) = .ok (m, m.encode (.array 32)) ↔
      manifestLength m.name (m.files.map fun file => (file.path, file.size)) ≤
        maxManifestBytes := by
  rw [← length_encode]
  constructor
  · exact fun h => (fetchManifest_eq_ok.1 h).2.1
  · intro hle
    have hlt : (m.encode (.array 32)).length < 2 ^ 64 := Nat.lt_of_le_of_lt hle (by decide)
    exact fetchManifest_encode idOf hvalid (fits_of_length (fun _ => trivial) hlt) hle rfl rfl rfl

lemma validate_fromDisk {rootName : Option Bytes} {label : Option String} {tree : Tree} {s s' : σ}
    {hashed : List (Data × FileOutboard Hash)}
    (h : fromDisk toLowercase rootName label tree metadata ingest s = (s', .ok (made, hashed))) :
    made.validate toLowercase = .ok () := by
  obtain ⟨hname, found, hfound, hunique, hpaths, -⟩ := fromDisk_eq_ok h
  exact validateFiles_of_checkUnique found made.files [] hpaths
    (collect_continues [] [made.name] tree found hfound) (shareName_eq_ok hname) hunique

lemma single_eq_ok {outboard : FileOutboard ShareId} (h : single name outboard = .ok m) :
    nameProblem name = none ∧ m =
      ⟨name, [⟨[name], outboard.1.size, outboard.2, outboard.1.root⟩]⟩ := by
  rw [single] at h
  split at h
  · cases h
  · rename_i hproblem
    exact ⟨hproblem, (Except.ok.inj h).symm⟩

lemma validate_single {outboard : FileOutboard ShareId} (h : single name outboard = .ok m) :
    m.validate toLowercase = .ok () := by
  obtain ⟨hname, rfl⟩ := single_eq_ok h
  refine validateFiles_of_checkUnique [([name], [])] _ [] rfl ?_ hname rfl
  intro file hfile
  rw [List.mem_singleton.1 hfile]
  exact ⟨[], by simp, by simp⟩

end Manifest

/-- What can be seeded, from disk or from a stream, is fetched with its share code, and is the
same, exactly if its encoding is not larger than a downloader accepts: names, paths and sizes
in bytes, and 32 bytes of hash for each file. -/
theorem seeded_fetchable_iff (toLowercase : String → String) (idOf : List UInt8 → ShareId) :
    (∀ (σ Data : Type) (rootName : Option Bytes) (label : Option String) (tree : Tree)
        (metadata : DiskNames → IoResult ℕ)
        (ingest : ℕ → DiskNames → ℕ → σ → σ × Result (Data × FileOutboard ShareId)) (s s' : σ)
        (m : Manifest ShareId) (hashed : List (Data × FileOutboard ShareId)) (name : String)
        (found : List (List String × DiskNames)),
      Manifest.fromDisk toLowercase rootName label tree metadata ingest s = (s', .ok (m, hashed)) →
      Manifest.shareName rootName label = .ok name → collect [] [name] tree = .ok found →
      (fetchManifest toLowercase idOf (.array 32) (m.shareCode idOf)
          (.manifest (m.encode (.array 32))) = .ok (m, m.encode (.array 32)) ↔
        manifestLength name ((found.map Prod.fst).zip (hashed.map fun file => file.2.1.size)) ≤
          maxManifestBytes)) ∧
    ∀ (name : String) (outboard : FileOutboard ShareId) (m : Manifest ShareId),
      Manifest.single name outboard = .ok m →
      (fetchManifest toLowercase idOf (.array 32) (m.shareCode idOf)
          (.manifest (m.encode (.array 32))) = .ok (m, m.encode (.array 32)) ↔
        manifestLength name [([name], outboard.1.size)] ≤ maxManifestBytes) := by
  constructor
  · intro σ Data rootName label tree metadata ingest s s' m hashed name found h hname hfound
    rw [Manifest.fetchManifest_shareCode_iff idOf (Manifest.validate_fromDisk h)]
    obtain ⟨hname', found', hfound', -, hpaths, hsizes⟩ := Manifest.fromDisk_eq_ok h
    obtain rfl := Except.ok.inj (hname.symm.trans hname')
    obtain rfl := Except.ok.inj (hfound.symm.trans hfound')
    rw [← hpaths, ← hsizes, List.zip_map']
  · intro name outboard m h
    rw [Manifest.fetchManifest_shareCode_iff idOf (Manifest.validate_single h)]
    obtain ⟨-, rfl⟩ := Manifest.single_eq_ok h
    rfl

/-! ## A long label -/

namespace LongLabel

def label (n : ℕ) : String := .ofList (List.replicate n 'a')

def outboard : FileOutboard ShareId := ⟨⟨List.Vector.replicate 32 7, 5, []⟩, by decide⟩

/-- A file of five bytes is hashed where it is. -/
def ingest (_ : ℕ) (_ : DiskNames) (_ : ℕ) (u : Unit) :
    Unit × Result (Unit × FileOutboard ShareId) :=
  (u, .ok ((), outboard))

def manifest (n : ℕ) : Manifest ShareId :=
  ⟨label n, [⟨[label n], 5, FileEntry.five_lt, List.Vector.replicate 32 7⟩]⟩

lemma nameProblem_label {n : ℕ} (hn : 4 < n) : nameProblem (label n) = none := by
  have hlist : (label n).toList = List.replicate n 'a' := String.toList_ofList
  have hne : ∀ text : String, text.length ≤ 4 → label n ≠ text := by
    intro text hlen heq
    rw [← heq, ← String.length_toList, hlist, List.length_replicate] at hlen
    omega
  have hstem : trimEnd (List.replicate n 'a') = List.replicate n 'a' := by
    rw [trimEnd, List.rdropWhile, List.reverse_replicate, List.dropWhile_replicate,
      if_neg (by decide), List.reverse_replicate]
  have hpos : ¬ n = 0 := by omega
  have hwhile : (List.replicate n 'a').takeWhile (· ≠ '.') = List.replicate n 'a' := by
    rw [List.takeWhile_replicate, if_pos (by decide)]
  have hchars : ((List.replicate n 'a').any fun c => c < ' ' || forbiddenChars.contains c) =
      false := by
    rw [List.any_replicate, if_neg hpos]
    decide
  have hlast : ((List.replicate n 'a').getLast?.any fun c => c == '.' || c == ' ') = false := by
    rw [List.getLast?_replicate, if_neg hpos]
    decide
  rw [nameProblem, if_neg (by rintro (h | h | h) <;> exact hne _ (by decide) h), hlist, hchars,
    hlast, hwhile]
  simp only [Bool.false_eq_true, if_false, hstem]
  rw [if_neg]
  rw [List.any_eq_true]
  rintro ⟨r, hr, heq⟩
  -- a reserved name has at most four letters
  have hlen := congrArg List.length (beq_iff_eq.1 heq)
  have hshort : ∀ r ∈ reservedNames, r.toList.length ≤ 4 := by decide
  rw [List.length_map, List.length_map, List.length_replicate] at hlen
  have := hshort r hr
  omega

lemma size_label (n : ℕ) : (label n).toByteArray.size = n := by
  rw [label, String.toByteArray_ofList]
  induction n with
  | zero => rfl
  | succ n ih =>
    have hone : (['a'] : List Char).utf8Encode.size = 1 := by decide
    rw [List.replicate_succ, List.utf8Encode_cons, ByteArray.size_append, ih, hone, Nat.add_comm]

lemma fromDisk_label {n : ℕ} (hn : 4 < n) :
    Manifest.fromDisk id none (some (label n)) .file (fun _ => .ok 5) ingest () =
      ((), .ok (manifest n, [((), outboard)])) := by
  have hname : Manifest.shareName none (some (label n)) = .ok (label n) := by
    rw [Manifest.shareName, nameProblem_label hn]
  rw [Manifest.fromDisk, hname]
  rfl

lemma fetchManifest_label {n : ℕ} (hn : 4194304 ≤ n) (idOf : List UInt8 → ShareId) :
    fetchManifest id idOf (.array 32) ((manifest n).shareCode idOf)
      (.manifest ((manifest n).encode (.array 32))) = .error .notSent := by
  have hstring : n ≤ stringLength (label n) := by
    rw [stringLength, size_label]
    exact Nat.le_add_left _ _
  have hlarge : ¬ ((manifest n).encode (.array 32)).length ≤ maxManifestBytes := by
    rw [Manifest.length_encode]
    simp only [manifest, manifestLength, List.map_cons, List.map_nil, List.sum_cons, List.sum_nil,
      entryLength, maxManifestBytes]
    omega
  rw [fetchManifest, if_neg hlarge]

end LongLabel

open LongLabel in
/-- A file of five bytes that is shared under a label of 4 MiB cannot be fetched, whatever the
hash function. -/
theorem seeded_not_fetchable :
    Manifest.fromDisk id none (some (label 4194304)) .file (fun _ => .ok 5) ingest () =
        ((), .ok (manifest 4194304, [((), outboard)])) ∧
      ∀ idOf : List UInt8 → ShareId,
        fetchManifest id idOf (.array 32) ((manifest 4194304).shareCode idOf)
          (.manifest ((manifest 4194304).encode (.array 32))) = .error .notSent :=
  ⟨fromDisk_label (by norm_num), fetchManifest_label le_rfl⟩

open LongLabel in
/-- Under a label of five letters it can, and so can a stream of that name. -/
theorem seeded_fetchable_iff_five :
    (fetchManifest id (fun _ => List.Vector.replicate 32 1) (.array 32)
        ((manifest 5).shareCode fun _ => List.Vector.replicate 32 1)
        (.manifest ((manifest 5).encode (.array 32))) =
          .ok (manifest 5, (manifest 5).encode (.array 32)) ↔
      manifestLength (label 5) [([label 5], 5)] ≤ maxManifestBytes) ∧
    manifestLength (label 5) [([label 5], 5)] ≤ maxManifestBytes := by
  refine ⟨?_, by decide +kernel⟩
  exact (seeded_fetchable_iff id fun _ => List.Vector.replicate 32 1).1 Unit Unit none
    (some (label 5)) .file (fun _ => .ok 5) ingest () () (manifest 5) _ (label 5) _
    (fromDisk_label (by decide)) (by rw [Manifest.shareName, nameProblem_label (by decide)]) rfl

end Chorrent
