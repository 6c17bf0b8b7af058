import ApiCatalog.Config.Decode
import ApiCatalog.Proofs.Document
import ApiCatalog.Proofs.FileSystem.Write

/-!
# A configuration survives its file

Every setting is written, so no default steps in for one that is empty. Nested maps come back by
their entries, a strictness by its word, and the field of a classmap is left out where reading
takes it for none (`Config.decode_encode`). So the file that a configuration is saved in is loaded
as the same configuration (`Config.load_save`).
-/

namespace ApiCatalog

open Json

/-! ## Numbers -/

/-- A number comes back from its digits. -/
theorem Numeral.ofDigits_toDigits (n : Nat) : Numeral.ofDigits (Nat.toDigits 10 n) = n := by
  have hstep : ∀ (digits : List Char) (start : Nat),
      digits.foldl (fun n d => n * 10 + (d.toNat - '0'.toNat)) start =
        Nat.ofDigitChars 10 digits start := by
    intro digits
    induction digits with
    | nil => exact fun start => rfl
    | cons d digits ih =>
      intro start
      rw [List.foldl_cons, ih, Nat.mul_comm]
      rfl
  unfold Numeral.ofDigits
  rw [hstep, Nat.ofDigitChars_ten_toDigits]

/-- Every number of the range of the error count is read. -/
theorem word64?_nat (n : UInt64) : word64? (.nat n.toNat) = some n := by
  have hnat : (Numeral.ofNat n.toNat).toNat? = some n.toNat := by
    simp [Numeral.ofNat, Numeral.toNat?, Numeral.toInt?, Numeral.ofDigits_toDigits]
  unfold word64? Json.nat
  dsimp only
  rw [hnat, Option.bind_some, dif_pos n.toNat_lt_size]
  exact congrArg some (UInt64.ofNatLT_toNat n)

/-! ## Settings -/

/-- A strictness comes back by its word. -/
theorem Strictness.decode_keyword (s : Strictness) : Strictness.decode (.text s.keyword) = some s := by
  cases s <;> rfl

/-- The handling of errors comes back. -/
theorem ErrorHandling.decode_encode (e : ErrorHandling) : ErrorHandling.decode e.encode = some e := by
  unfold ErrorHandling.decode ErrorHandling.encode
  rw [members?_record (by rfl) (by decide)]
  simp [orElse, Strictness.decode_keyword, word64?_nat]

/-- The fields of a branch, present or absent. -/
def Branch.fields (b : Branch) : List (String × Option Json) :=
  [("paths", some (texts b.paths)), ("files", some (texts b.files)),
    ("classmap", b.classmap.map .text)]

theorem Branch.encode_eq (b : Branch) : b.encode = record (present b.fields) := by
  unfold Branch.encode Branch.fields
  congr 1
  cases b.classmap <;> rfl

/-- A branch comes back, with a classmap or without. -/
theorem Branch.decode_encode (b : Branch) : Branch.decode b.encode = some b := by
  have hmembers := members?_present b.fields (by simp [fields])
  rw [Branch.encode_eq]
  unfold Branch.decode
  simp only [fields, List.map_cons, List.map_nil] at hmembers ⊢
  simp [hmembers, orElse, list?_texts, optional_text]

/-- A dictionary comes back if its values do. -/
theorem dictionary?_ofDictionary {α : Type} {decode : Json → Option α} {encode : α → Json}
    (h : ∀ a, decode (encode a) = some a) (d : Dictionary α) :
    dictionary? decode (ofDictionary encode d) = some d :=
  entries?_ofDictionary fun entry _ => h entry.2

/-- So a configuration comes back, each setting under its own field. -/
theorem Config.decode_encode (c : Config) : Config.decode c.encode = some c := by
  have htexts : ∀ d : Dictionary String, dictionary? text? (ofDictionary .text d) = some d :=
    dictionary?_ofDictionary fun _ => rfl
  have hreleases : dictionary? (dictionary? text?)
      (ofDictionary (ofDictionary .text) c.stableReleases) = some c.stableReleases :=
    dictionary?_ofDictionary htexts c.stableReleases
  have hbranches : dictionary? Branch.decode (ofDictionary Branch.encode c.branches) =
      some c.branches := dictionary?_ofDictionary Branch.decode_encode c.branches
  unfold Config.decode Config.encode
  rw [members?_record (by rfl) (by decide)]
  simp [orElse, text?, list?_texts, hreleases, hbranches, ErrorHandling.decode_encode]

/-! ## The file of a configuration -/

theorem Branch.written_encode (b : Branch) : Written b.encode := by
  rw [Branch.encode_eq]
  refine written_present ?_
  simp [fields, Written.text, written_texts]

theorem Config.written_encode (c : Config) : Written c.encode := by
  have hreleases : Written (ofDictionary (ofDictionary .text) c.stableReleases) :=
    written_ofDictionary fun releases _ => written_aliases releases.2
  have hbranches : Written (ofDictionary Branch.encode c.branches) :=
    written_ofDictionary fun branch _ => branch.2.written_encode
  have hhandling : Written c.errorHandling.encode := by
    refine written_record ?_
    simp [Written.text, Written.nat]
  refine written_record ?_
  simp [Written.text, written_texts, hreleases, hbranches, hhandling]

/-- The text of a configuration is read as that configuration. -/
theorem Config.ofBytes_encode_write (c : Config) : Config.ofBytes (Text.encode c.write) = .ok c := by
  have hread : Config.read? c.write.toList = some c := by
    unfold Config.read? Config.write
    rw [String.toList_ofList, read?_pretty c.written_encode, Option.bind_some, decode_encode]
  unfold Config.ofBytes
  rw [Text.decode?_encode]
  dsimp only
  rw [hread]

/-- A disk that has no problem with a file takes it all. -/
theorem Disk.taken_eq_self {disk : Disk} {bytes : List UInt8}
    (h : disk.problem? bytes.length = none) : disk.taken bytes = bytes := by
  unfold Disk.problem? at h
  unfold Disk.taken
  split at h
  · rfl
  · next most problem hlimit =>
    split at h
    · cases h
    · next hfits => exact List.take_of_length_le (Nat.le_of_not_lt hfits)

/-- A configuration is loaded from the text it is written as, and from every file that it has been
saved in, whatever the file held before, as long as the file may be read. -/
theorem Config.load_save (c : Config) :
    Config.ofBytes (Text.encode c.write) = .ok c ∧
      ∀ (files : FileSystem) (path : RawPath) (files' : FileSystem),
        (∀ access old, files.root.follow (files.destination path) = some (.file access old) →
          access.read = none) →
        c.save files path = (.ok (), files') → Config.load files' path = .ok c := by
  refine ⟨c.ofBytes_encode_write, fun files path files' hreadable hsave => ?_⟩
  unfold Config.save at hsave
  dsimp only at hsave
  cases hwrite : files.write path (files.disk.taken (Text.encode c.write)) with
  | error problem =>
    rw [hwrite] at hsave
    cases hsave
  | ok written =>
    rw [hwrite] at hsave
    obtain ⟨hdisk, rfl⟩ := Prod.mk.inj hsave
    rw [Disk.taken_eq_self (FileSystem.allow_eq_ok_iff.1 hdisk)] at hwrite
    unfold Config.load
    rw [FileSystem.read_of_write hwrite hreadable]
    exact c.ofBytes_encode_write

/-- Settings that are empty, where the default is not, come back empty. -/
theorem Config.load_save_bare :
    let c : Config := {
      extension := ""
      stableReleases := ∅
      branches := .ofList [("3", { paths := ["lib"] })]
      errorHandling := { strictness := .permissive, maxErrors := 0 } }
    let path := Text.encode Config.fileName
    let saved := (c.save {} path).2
    c.save {} path = (.ok (), saved) ∧ Config.load saved path = .ok c := by
  intro c path saved
  have hfree : (FileSystem.root {}).follow (FileSystem.destination {} path) = none := by
    decide +kernel
  have hsave : c.save {} path = (.ok (), saved) := by
    refine Prod.ext ?_ rfl
    decide +kernel
  refine ⟨hsave, c.load_save.2 {} path saved (fun access old h => ?_) hsave⟩
  cases hfree.symm.trans h

end ApiCatalog
