import Mathlib.Data.List.Infix
import Mathlib.Data.List.Nodup
import KoheronSdk.Lib.Transition
import KoheronSdk.Client.TypeStrings

/-!
# The instruments of the HTTP API

`KoheronApp` keeps a directory of instruments, zip files, and a list of them in memory.  One of
them, named in the file `default`, is run when the app starts.  Three requests change the app: an
instrument is run, deleted or uploaded.

## What the three handlers make of a name

A name comes in by the route or as the name of an uploaded file, and each handler has its own way
of turning it into a file.  A `run` and a `delete` put `.zip` behind it and pass the result through
`secure_filename`; a `delete` then searches the list for the name as it was given.  An `upload`
tests the name as it was given for `.zip` and saves under the secure one.  Where `secure_filename`
changes a name, the list and the directory part ways.

A `delete` also removes the file before it looks whether the instrument is the default one, and an
`upload` saves the file before it reads the version, which may raise.  Whether it does is not only
a matter of the file: `is_file_in_zip` searches all that `unzip -l` prints, the path included, so
that an archive without a version is searched for one when its name has `version` in it.

## What a run leaves behind

`run_instrument` drops the exit status of `install_instrument.sh`, and makes the instrument the live
one in any case.  The state therefore carries, beside the fields of the app, what has happened on
the host: each start of the installer with its exit status.  The statuses are given with the
requests, and nothing is assumed of them.

## Results

* `Tools`: what is not in the source, `secure_filename`, `unzip` and the texts of files.
* `initInstruments`, `runRoute`, `deleteInstrument`, `uploadInstrument`: the app.
* `Consistent`: the list is that of the directory, the default instrument is still there, and
  the live instrument is the last one whose installer has not failed.
* `Inv`: what is kept besides, that the default instrument is the one that the file says.
* `consistent_iff_harmless`: the app stays consistent exactly as long as no request is harmful.
-/

namespace KoheronSdk

open Transition

namespace Instruments

/-! ## Paths -/

/-- `os.path.basename` -/
def basename (path : Str) : Str := (path.reverse.takeWhile (· ≠ '/')).reverse

instance (stem : Str) : Decidable (∃ c ∈ stem, c ≠ '.') :=
  List.decidableBEx (· ≠ '.') stem

/-- `os.path.splitext`, of a base name.  Dots at its begin are not those of an extension. -/
def splitext (base : Str) : Str × Str :=
  match base.reverse.dropWhile (· ≠ '.') with
  | [] => (base, [])
  | dot :: stem =>
    if ∃ c ∈ stem, c ≠ '.' then
      (stem.reverse, dot :: (base.reverse.takeWhile (· ≠ '.')).reverse)
    else (base, [])

/-- `os.path.join`, of a directory that ends with a slash -/
def join (dirname filename : Str) : Str :=
  if filename.head? = some '/' then filename else dirname ++ filename

/-- `'.zip'` -/
def dotZip : Str := ['.', 'z', 'i', 'p']

/-- `is_zip` -/
def isZip (filename : Str) : Prop := (splitext (basename filename)).2 = dotZip

instance (filename : Str) : Decidable (isZip filename) :=
  inferInstanceAs (Decidable ((splitext (basename filename)).2 = dotZip))

/-- `get_name_from_zipfilename` -/
def getNameFromZipfilename (zipFilename : Str) : Option Str :=
  let split := splitext (basename zipFilename)
  if split.2 = dotZip then some split.1 else none

/-- `instruments_dirname` -/
def instrumentsDirname : Str := "/usr/local/instruments/".toList

/-- The name of a file in a directory. -/
abbrev Filename := {f : Str // '/' ∉ f}

/-- The path of an instrument file. -/
def Filename.path (f : Filename) : Str := join instrumentsDirname f.1

/-- `default_filename` -/
def defaultFilename : Filename := ⟨"default".toList, by decide⟩

/-- `version_filename` -/
def versionFilename : Str := "version".toList

/-! ## The directory -/

/-- A directory: its files, each once. -/
structure Directory (File : Type) where
  entries : List (Filename × File)
  nodup : (entries.map Prod.fst).Nodup

variable {File : Type}

namespace Directory

variable (dir : Directory File)

/-- `os.listdir` -/
def names : List Filename := dir.entries.map Prod.fst

/-- The contents of a file. -/
def read (f : Filename) : Option File := (dir.entries.find? (·.1 = f)).map Prod.snd

/-- `os.remove` -/
def remove (f : Filename) : Directory File where
  entries := dir.entries.filter (·.1 ≠ f)
  nodup := dir.nodup.sublist (List.filter_sublist.map Prod.fst)

theorem not_mem_names_remove (f : Filename) : f ∉ (dir.remove f).names := fun h => by
  obtain ⟨entry, hentry, rfl⟩ := List.mem_map.mp h
  exact of_decide_eq_true (List.mem_filter.mp hentry).2 rfl

/-- A file is written. -/
def save (f : Filename) (file : File) : Directory File where
  entries := (dir.remove f).entries ++ [(f, file)]
  nodup := by
    rw [List.map_append, List.map_singleton, ← List.concat_eq_append]
    exact (List.nodup_concat _ _).mpr ⟨dir.not_mem_names_remove f, (dir.remove f).nodup⟩

end Directory

/-! ## The app -/

/-- What the app uses of its environment: `secure_filename`, whose result is the name of a file,
what `unzip -l` and `unzip -c` print for a path and what is there, and the text of a file.  Both
print the path as well, so that the name of an instrument is part of what is searched. -/
structure Tools (File : Type) where
  secureFilename : Str → Filename
  unzipList : Str → Option File → List UInt8
  unzipContent : Str → Option File → Str → List UInt8
  text : File → Str

/-- An entry of `instruments_list`. -/
structure Instrument where
  name : Option Str
  version : Str
  isDefault : Bool
  deriving DecidableEq

/-- The app: its directory and its fields.  `installs` is no field of it: it is what has happened on
the host, each start of `install_instrument.sh` with the instrument that it was for and the exit
status that it has returned. -/
structure KoheronApp (File : Type) where
  directory : Directory File
  instrumentsList : List Instrument
  liveInstrument : Option Instrument
  installs : List (Instrument × ℤ)

/-- `bytes.splitlines`, behind the begin of a line. -/
def splitlines (line : List UInt8) : List UInt8 → List (List UInt8)
  | [] => if line = [] then [] else [line]
  | 13 :: 10 :: rest => line :: splitlines [] rest
  | 13 :: rest => line :: splitlines [] rest
  | 10 :: rest => line :: splitlines [] rest
  | byte :: rest => splitlines (line ++ [byte]) rest

namespace Tools

variable (tools : Tools File)

/-- `is_file_in_zip` -/
def isFileInZip (zipFilename : Str) (zip? : Option File) (targetFilename : Str) : Prop :=
  targetFilename.flatMap String.utf8EncodeChar <:+: tools.unzipList zipFilename zip?

instance (zipFilename : Str) (zip? : Option File) (targetFilename : Str) :
    Decidable (tools.isFileInZip zipFilename zip? targetFilename) :=
  inferInstanceAs (Decidable (_ <:+: _))

/-- `read_file_in_zip` -/
def readFileInZip (zipFilename : Str) (zip? : Option File) (targetFilename : Str) :
    Option (List UInt8) :=
  (splitlines [] (tools.unzipContent zipFilename zip? targetFilename))[2]?

/-- The version of an instrument, or `none` when it cannot be read. -/
def version (zipFilename : Str) (zip? : Option File) : Option Str :=
  if tools.isFileInZip zipFilename zip? versionFilename then do
    let content ← tools.readFileInZip zipFilename zip? versionFilename
    (String.fromUTF8? ⟨content.toArray⟩).map String.toList
  else some "0.0.0".toList

/-- `get_instrument_dict` -/
def getInstrumentDict (dir : Directory File) (f : Filename) (isDefault : Bool) :
    Option Instrument := do
  let version ← tools.version f.path (dir.read f)
  return ⟨getNameFromZipfilename f.path, version, isDefault⟩

/-- `f.read().rstrip('\n')` -/
def rstrip (text : Str) : Str := (text.reverse.dropWhile (· = '\n')).reverse

/-- `is_default_instrument` -/
def isDefaultInstrument (dir : Directory File) (f : Filename) : Option Bool := do
  let file ← dir.read defaultFilename
  return f.path = join instrumentsDirname (rstrip (tools.text file))

end Tools

namespace KoheronApp

/-- `subprocess.call` of `install_instrument.sh` -/
def install (app : KoheronApp File) (instrumentDict : Instrument) (status : ℤ) : KoheronApp File :=
  { app with installs := app.installs ++ [(instrumentDict, status)] }

/-- `run_instrument`: whether it returns `'success'`, or `none` when it raises.  The exit status of
the installer is dropped. -/
def runInstrument (app : KoheronApp File) (f : Filename) (instrumentDict : Instrument)
    (status : ℤ) : Option (KoheronApp File × Bool) :=
  if f ∈ app.directory.names then do
    let _name ← getNameFromZipfilename f.path
    let app := app.install instrumentDict status
    return ({ app with liveInstrument := some instrumentDict }, true)
  else some (app, false)

/-- An instrument with a name is listed. -/
def listed (app : KoheronApp File) (instrument : Instrument) : KoheronApp File :=
  if instrument.name ≠ none then
    { app with instrumentsList := app.instrumentsList ++ [instrument] }
  else app

/-- The last instrument whose installer has ended with status 0. -/
def lastSucceeded (app : KoheronApp File) : Option Instrument :=
  (app.installs.filter (·.2 = 0)).getLast?.map Prod.fst

end KoheronApp

namespace Tools

variable (tools : Tools File)

/-- The loop of `init_instruments`.  `status` is the exit status of the installer. -/
def initLoop (status : ℤ) (app : KoheronApp File) : List Filename → Option (KoheronApp File)
  | [] => some app
  | f :: filenames => do
    let isDefault ← tools.isDefaultInstrument app.directory f
    let instrument ← tools.getInstrumentDict app.directory f isDefault
    if isDefault then
      let ran ← (app.listed instrument).runInstrument f instrument status
      initLoop status ran.1 filenames
    else initLoop status (app.listed instrument) filenames

/-- `init_instruments`, which may raise. -/
def initInstruments (dir : Directory File) (status : ℤ) : Option (KoheronApp File) :=
  tools.initLoop status ⟨dir, [], none, []⟩ (dir.names.filter fun f => dotZip.isSuffixOf f.1)

end Tools

/-- The response to a request, or an error of the server. -/
inductive Response where
  | text (s : Str)
  | error
  deriving DecidableEq

/-- The requests that change the app.  An upload has its files by name; with a run comes the exit
status that the installer has if it is started. -/
inductive Request (File : Type) where
  | run (name : Str) (status : ℤ)
  | delete (name : Str)
  | upload (files : List (Str × File))

namespace Tools

variable (tools : Tools File) (app : KoheronApp File)

/-- `run_instrument`, the route -/
def runRoute (name : Str) (status : ℤ) : KoheronApp File × Response :=
  let zipFilename := name ++ dotZip
  let f := tools.secureFilename zipFilename
  let ran := do
    let isDefault ← tools.isDefaultInstrument app.directory (tools.secureFilename f.path)
    let instrumentDict ← tools.getInstrumentDict app.directory f isDefault
    app.runInstrument f instrumentDict status
  match ran with
  | none => (app, .error)
  | some (app, true) => (app, .text
      ("Instrument ".toList ++ zipFilename ++ " successfully installed".toList))
  | some (app, false) => (app, .text ("Failed to install instrument ".toList ++ zipFilename))

/-- `delete_instrument`.  A handler that returns `None` is an error of the server. -/
def deleteInstrument (name : Str) : KoheronApp File × Response :=
  let zipFilename := tools.secureFilename (name ++ dotZip)
  let app := if zipFilename ∈ app.directory.names then
    { app with directory := app.directory.remove zipFilename } else app
  match app.instrumentsList.find? (·.name = some name) with
  | none => (app, .error)
  | some instrument =>
    if instrument.isDefault then (app, .text "Default instrument cannot be removed".toList)
    else ({ app with instrumentsList := app.instrumentsList.erase instrument },
      .text ("Instrument ".toList ++ zipFilename.1 ++ " removed.".toList))

end Tools

/-- The loop of `upload_instrument` over the list that it removes from, with
`is_instrument_in_list`. -/
def uploadLoop (instrument : Instrument) (list : List Instrument) (i : ℕ)
    (isInstrumentInList : Bool) : List Instrument × Bool :=
  if h : i < list.length then
    if list[i].name = instrument.name then
      if some list[i].version ≠ instrument.name then
        uploadLoop instrument (list.erase list[i]) (i + 1) isInstrumentInList
      else uploadLoop instrument list (i + 1) true
    else uploadLoop instrument list (i + 1) isInstrumentInList
  else (list, isInstrumentInList)
termination_by list.length - i
decreasing_by
  · have := List.length_erase_le (a := list[i]) (l := list)
    omega
  · omega
  · omega

namespace Tools

variable (tools : Tools File) (app : KoheronApp File)

/-- `upload_instrument` -/
def uploadInstrument (files : List (Str × File)) : KoheronApp File × Response :=
  match files.find? fun upload => isZip upload.1 with
  | none => (app, .text "Instrument upload failed.".toList)
  | some (filename, file) =>
    let f := tools.secureFilename filename
    let app := { app with directory := app.directory.save f file }
    let instrument? := do
      let isDefault ← tools.isDefaultInstrument app.directory f
      tools.getInstrumentDict app.directory f isDefault
    match instrument? with
    | none => (app, .error)
    | some instrument =>
      let looped := uploadLoop instrument app.instrumentsList 0 false
      let list := if looped.2 then looped.1 else looped.1 ++ [instrument]
      ({ app with instrumentsList := list },
        .text ("Instrument ".toList ++ filename ++ " uploaded.".toList))

/-- A request is handled. -/
def handle : Request File → KoheronApp File × Response
  | .run name status => tools.runRoute app name status
  | .delete name => tools.deleteInstrument app name
  | .upload files => tools.uploadInstrument app files

/-- One request after another. -/
def step (app : KoheronApp File) (request : Request File) : Option (KoheronApp File) :=
  some (tools.handle app request).1

end Tools

/-! ## Consistency -/

/-- `d` is the default instrument of the directory, and its zip file is there. -/
structure DefaultPresent (tools : Tools File) (dir : Directory File) (d : Filename) : Prop where
  isDefault : tools.isDefaultInstrument dir d = some true
  mem : d ∈ dir.names
  isZip : isZip d.1

/-- The list in memory is that of the directory, `d`, once the default instrument, is still listed
and there, and the live instrument is the last one that was installed. -/
structure Consistent (d : Filename) (app : KoheronApp File) : Prop where
  nodup : (app.instrumentsList.map Instrument.name).Nodup
  mem_iff : ∀ name, name ∈ app.instrumentsList.map Instrument.name ↔
    ∃ f ∈ app.directory.names, isZip f.1 ∧ getNameFromZipfilename f.path = name
  default_listed : getNameFromZipfilename d.path ∈ app.instrumentsList.map Instrument.name
  default_present : d ∈ app.directory.names
  live : app.liveInstrument = app.lastSucceeded

/-- The instrument of a `run` that gets as far as to start the installer. -/
def Tools.installed (tools : Tools File) (app : KoheronApp File) (name : Str) :
    Option Instrument := do
  let f := tools.secureFilename (name ++ dotZip)
  let isDefault ← tools.isDefaultInstrument app.directory (tools.secureFilename f.path)
  let instrumentDict ← tools.getInstrumentDict app.directory f isDefault
  if f ∈ app.directory.names ∧ isZip f.1 then some instrumentDict else none

/-- What a request must not do.  The installer of a `run` must not fail, unless its instrument is
the live one already.  A `delete` of a listed instrument, not the default one, must
name its file, and no other may name a zip file that is there.  An `upload` must be a zip file
under its secure name, with a version that can be read, unless it is there already; or neither
of both. -/
def Harmless (tools : Tools File) (app : KoheronApp File) : Request File → Prop
  | .run name status =>
    status = 0 ∨ ∀ instrument ∈ tools.installed app name, app.liveInstrument = some instrument
  | .delete name =>
    if ∃ i ∈ app.instrumentsList, i.name = some name ∧ i.isDefault = false then
      (tools.secureFilename (name ++ dotZip)).1 = name ++ dotZip
    else ¬ (tools.secureFilename (name ++ dotZip) ∈ app.directory.names ∧
      isZip (tools.secureFilename (name ++ dotZip)).1)
  | .upload files => ∀ upload ∈ files.find? fun upload => isZip upload.1,
    if isZip (tools.secureFilename upload.1).1 then
      tools.version (tools.secureFilename upload.1).path (some upload.2) ≠ none ∨
        tools.secureFilename upload.1 ∈ app.directory.names
    else tools.version (tools.secureFilename upload.1).path (some upload.2) = none

/-! ### Names and paths -/

theorem Filename.path_eq (f : Filename) : f.path = instrumentsDirname ++ f.1 := by
  refine if_neg fun h => f.2 ?_
  exact List.mem_of_mem_head? h

theorem takeWhile_reverse_of_notMem {c : Char} {s : Str} (h : c ∉ s) (t : Str) :
    (s ++ c :: t).takeWhile (· ≠ c) = s := by
  rw [List.takeWhile_append_of_pos, List.takeWhile_cons_of_neg, List.append_nil]
  · simp
  · exact fun a ha => decide_eq_true (ne_of_mem_of_not_mem ha h)

theorem basename_path (f : Filename) : basename f.path = f.1 := by
  have hdir : instrumentsDirname.reverse = '/' :: "stnemurtsni/lacol/rsu/".toList := by decide
  rw [basename, f.path_eq, List.reverse_append, hdir,
    takeWhile_reverse_of_notMem (mt List.mem_reverse.mp f.2), List.reverse_reverse]

theorem basename_filename (f : Filename) : basename f.1 = f.1 := by
  have hall : f.1.reverse.takeWhile (· ≠ '/') = f.1.reverse := by
    have happend : (f.1.reverse ++ []).takeWhile (· ≠ '/') = f.1.reverse ++ [] :=
      List.takeWhile_append_of_pos fun c hc =>
        decide_eq_true (ne_of_mem_of_not_mem (List.mem_reverse.mp hc) f.2)
    rwa [List.append_nil] at happend
  rw [basename, hall, List.reverse_reverse]

/-- A name with the extension of a zip file. -/
theorem splitext_eq_dotZip_iff {base name : Str} :
    splitext base = (name, dotZip) ↔ base = name ++ dotZip ∧ ∃ c ∈ name, c ≠ '.' := by
  constructor
  · intro h
    have hsplit := List.takeWhile_append_dropWhile (p := (· ≠ '.')) (l := base.reverse)
    unfold splitext at h
    split at h
    · cases h
    · rename_i dot stem hdrop
      split at h
      · rename_i hname
        injection h with hstem hext
        rw [hdrop] at hsplit
        have hbase := congrArg List.reverse hsplit
        rw [List.reverse_append, List.reverse_reverse, List.reverse_cons, List.append_assoc,
          List.singleton_append, hext, hstem] at hbase
        refine ⟨hbase.symm, ?_⟩
        obtain ⟨c, hc, hne⟩ := hname
        exact ⟨c, hstem ▸ List.mem_reverse.mpr hc, hne⟩
      · cases h
  · rintro ⟨rfl, c, hc, hne⟩
    have hdrop : (name ++ dotZip).reverse.dropWhile (· ≠ '.') = '.' :: name.reverse := by
      rw [List.reverse_append]
      rfl
    have htake : (name ++ dotZip).reverse.takeWhile (· ≠ '.') = ['p', 'i', 'z'] := by
      rw [List.reverse_append]
      rfl
    unfold splitext
    rw [hdrop, htake]
    show (if ∃ c ∈ name.reverse, c ≠ '.' then (name.reverse.reverse, dotZip) else _) = _
    rw [if_pos ⟨c, List.mem_reverse.mpr hc, hne⟩, List.reverse_reverse]

/-- The name of an instrument, from its file. -/
theorem getName_path_eq_some_iff {f : Filename} {name : Str} :
    getNameFromZipfilename f.path = some name ↔ f.1 = name ++ dotZip ∧ ∃ c ∈ name, c ≠ '.' := by
  rw [← splitext_eq_dotZip_iff]
  show (if (splitext (basename f.path)).2 = dotZip then _ else _) = some name ↔ _
  rw [basename_path, Option.ite_none_right_eq_some, Option.some_inj]
  exact ⟨fun h => Prod.ext h.2 h.1, fun h => ⟨congrArg Prod.snd h, congrArg Prod.fst h⟩⟩

theorem isZip_iff (f : Filename) :
    isZip f.1 ↔ ∃ name, getNameFromZipfilename f.path = some name := by
  rw [isZip, getNameFromZipfilename, basename_filename, basename_path]
  constructor
  · exact fun h => ⟨_, if_pos h⟩
  · rintro ⟨name, h⟩
    exact (Option.ite_none_right_eq_some.mp h).1

/-- A zip file is the only one with its name. -/
theorem getName_injective {f g : Filename} {name : Str}
    (hf : getNameFromZipfilename f.path = some name)
    (hg : getNameFromZipfilename g.path = some name) : f = g :=
  Subtype.ext ((getName_path_eq_some_iff.mp hf).1.trans (getName_path_eq_some_iff.mp hg).1.symm)

theorem getName_injective_of_isZip {f g : Filename} (hf : isZip f.1)
    (h : getNameFromZipfilename f.path = getNameFromZipfilename g.path) : f = g := by
  obtain ⟨name, hname⟩ := (isZip_iff f).mp hf
  exact getName_injective hname (h ▸ hname)

theorem Filename.path_injective {f g : Filename} (h : f.path = g.path) : f = g := by
  rw [f.path_eq, g.path_eq] at h
  exact Subtype.ext (List.append_cancel_left h)

/-! ### The directory -/

namespace Directory

variable {dir : Directory File} {f g : Filename}

theorem mem_names_remove : g ∈ (dir.remove f).names ↔ g ∈ dir.names ∧ g ≠ f := by
  constructor
  · intro h
    refine ⟨(List.filter_sublist.map Prod.fst).mem h, fun heq => ?_⟩
    exact dir.not_mem_names_remove f (heq ▸ h)
  · rintro ⟨h, hne⟩
    obtain ⟨entry, hentry, rfl⟩ := List.mem_map.mp h
    exact List.mem_map_of_mem (List.mem_filter.mpr ⟨hentry, decide_eq_true hne⟩)

theorem mem_names_save {file : File} : g ∈ (dir.save f file).names ↔ g ∈ dir.names ∨ g = f := by
  show g ∈ ((dir.remove f).entries ++ [(f, file)]).map Prod.fst ↔ _
  rw [List.map_append, List.mem_append, List.map_singleton, List.mem_singleton]
  show g ∈ (dir.remove f).names ∨ _ ↔ _
  rw [mem_names_remove]
  constructor
  · exact fun h => h.imp_left And.left
  · rintro (h | h)
    · by_cases hne : g = f
      · exact Or.inr hne
      · exact Or.inl ⟨h, hne⟩
    · exact Or.inr h

theorem read_remove_of_ne (h : g ≠ f) : (dir.remove f).read g = dir.read g := by
  show ((dir.entries.filter _).find? _).map _ = _
  rw [List.find?_filter]
  refine congrArg (Option.map Prod.snd) (congrArg (List.find? · dir.entries) ?_)
  funext entry
  by_cases heq : entry.1 = g
  · simp [heq, h]
  · simp [heq]

theorem read_save_of_ne {file : File} (h : g ≠ f) : (dir.save f file).read g = dir.read g := by
  rw [← show (dir.remove f).read g = dir.read g from read_remove_of_ne h]
  show (((dir.remove f).entries ++ [(f, file)]).find? _).map _ = _
  rw [List.find?_append, List.find?_cons_of_neg (by simpa using h.symm), List.find?_nil,
    Option.or_none]
  rfl

theorem read_save_self {file : File} : (dir.save f file).read f = some file := by
  have hnone : (dir.remove f).entries.find? (·.1 = f) = none := by
    refine List.find?_eq_none.mpr fun entry hentry => ?_
    simp only [decide_eq_true_eq]
    rintro rfl
    exact dir.not_mem_names_remove entry.1 (List.mem_map_of_mem hentry)
  show (((dir.remove f).entries ++ [(f, file)]).find? _).map _ = _
  rw [List.find?_append, hnone, Option.none_or, List.find?_cons_of_pos (by simp)]
  rfl

end Directory

/-! ### The loop of an upload -/

/-- Nothing has the name from here on. -/
theorem uploadLoop_of_forall_ne (instrument : Instrument) (list : List Instrument) (i : ℕ)
    (isInstrumentInList : Bool)
    (h : ∀ j (hj : j < list.length), i ≤ j → list[j].name ≠ instrument.name) :
    uploadLoop instrument list i isInstrumentInList = (list, isInstrumentInList) := by
  unfold uploadLoop
  split
  · rename_i hi
    rw [if_neg (h i hi (Nat.le_refl i))]
    exact uploadLoop_of_forall_ne instrument list (i + 1) isInstrumentInList
      fun j hj hij => h j hj (Nat.le_of_succ_le hij)
  · rfl
termination_by list.length - i

/-- The entry of an instrument that is listed once is removed, or kept. -/
theorem uploadLoop_cases (instrument : Instrument) (list : List Instrument) (i : ℕ)
    (hnodup : (list.map Instrument.name).Nodup) :
    (uploadLoop instrument list i false = (list, false) ∧
        ∀ j (hj : j < list.length), i ≤ j → list[j].name ≠ instrument.name) ∨
      ∃ listed ∈ list, listed.name = instrument.name ∧
        (uploadLoop instrument list i false = (list.erase listed, false) ∨
          uploadLoop instrument list i false = (list, true)) := by
  rw [uploadLoop]
  split
  · rename_i hi
    by_cases hname : list[i].name = instrument.name
    · refine Or.inr ⟨list[i], List.getElem_mem hi, hname, ?_⟩
      rw [if_pos hname]
      have hother : ∀ x ∈ list, x ≠ list[i] → x.name ≠ instrument.name := fun x hx hne heq =>
        hne (List.inj_on_of_nodup_map hnodup hx (List.getElem_mem hi) (heq.trans hname.symm))
      have hlist : list.Nodup := hnodup.of_map Instrument.name
      split
      · refine Or.inl (uploadLoop_of_forall_ne _ _ _ _ fun j hj _ => ?_)
        have hmem := List.getElem_mem hj
        exact hother _ (List.mem_of_mem_erase hmem) ((List.Nodup.mem_erase_iff hlist).mp hmem).1
      · refine Or.inr (uploadLoop_of_forall_ne _ _ _ _ fun j hj hij => ?_)
        refine hother _ (List.getElem_mem hj) fun heq => ?_
        have := (List.Nodup.getElem_inj_iff hlist).mp heq
        omega
    · rw [if_neg hname]
      rcases uploadLoop_cases instrument list (i + 1) hnodup with ⟨heq, hne⟩ | hfound
      · refine Or.inl ⟨heq, fun j hj hij => ?_⟩
        rcases Nat.eq_or_lt_of_le hij with rfl | hlt
        · exact hname
        · exact hne j hj hlt
      · exact Or.inr hfound
  · exact Or.inl ⟨rfl, fun j hj hij => absurd hj (by omega)⟩
termination_by list.length - i

/-- The list after an upload. -/
def uploadedList (instrument : Instrument) (list : List Instrument) : List Instrument :=
  if (uploadLoop instrument list 0 false).2 then (uploadLoop instrument list 0 false).1
  else (uploadLoop instrument list 0 false).1 ++ [instrument]

/-- **An upload lists its instrument once**, and keeps the others. -/
theorem uploadedList_spec (instrument : Instrument) {list : List Instrument}
    (hnodup : (list.map Instrument.name).Nodup) :
    ((uploadedList instrument list).map Instrument.name).Nodup ∧
      (∀ name, name ∈ (uploadedList instrument list).map Instrument.name ↔
        name ∈ list.map Instrument.name ∨ name = instrument.name) ∧
      ∀ x ∈ uploadedList instrument list, x ∈ list ∨ x = instrument := by
  have happend : ∀ l : List Instrument, (l.map Instrument.name).Nodup →
      instrument.name ∉ l.map Instrument.name →
      ((l ++ [instrument]).map Instrument.name).Nodup ∧
        ∀ name, name ∈ (l ++ [instrument]).map Instrument.name ↔
          name ∈ l.map Instrument.name ∨ name = instrument.name := by
    intro l hl hnew
    rw [List.map_append, List.map_singleton]
    refine ⟨?_, fun name => by rw [List.mem_append, List.mem_singleton]⟩
    rw [← List.concat_eq_append]
    exact (List.nodup_concat _ _).mpr ⟨hnew, hl⟩
  rcases uploadLoop_cases instrument list 0 hnodup with ⟨heq, hne⟩ |
      ⟨listed, hlisted, hname, heq | heq⟩
  · have hnew : instrument.name ∉ list.map Instrument.name := fun hmem => by
      obtain ⟨x, hx, hxname⟩ := List.mem_map.mp hmem
      obtain ⟨j, hj, rfl⟩ := List.mem_iff_getElem.mp hx
      exact hne j hj (Nat.zero_le j) hxname
    have hlist : uploadedList instrument list = list ++ [instrument] := by
      rw [uploadedList, heq]
      rfl
    rw [hlist]
    obtain ⟨h₁, h₂⟩ := happend list hnodup hnew
    exact ⟨h₁, h₂, fun x hx => by rwa [List.mem_append, List.mem_singleton] at hx⟩
  · have hlist : uploadedList instrument list = list.erase listed ++ [instrument] := by
      rw [uploadedList, heq]
      rfl
    have hperm : (list.map Instrument.name).Perm
        (instrument.name :: (list.erase listed).map Instrument.name) := by
      rw [← hname]
      exact (List.perm_cons_erase hlisted).map Instrument.name
    obtain ⟨hnew, hrest⟩ := List.nodup_cons.mp (hperm.nodup_iff.mp hnodup)
    rw [hlist]
    obtain ⟨h₁, h₂⟩ := happend _ hrest hnew
    refine ⟨h₁, fun name => ?_, fun x hx => ?_⟩
    · rw [h₂, hperm.mem_iff, List.mem_cons]
      exact ⟨fun h => h.elim (fun h => Or.inl (Or.inr h)) Or.inr,
        fun h => h.elim Or.symm Or.inr⟩
    · rcases List.mem_append.mp hx with hold | hnew
      · exact Or.inl (List.mem_of_mem_erase hold)
      · exact Or.inr (List.mem_singleton.mp hnew)
  · have hlist : uploadedList instrument list = list := by
      rw [uploadedList, heq]
      rfl
    rw [hlist]
    refine ⟨hnodup, fun name => ⟨Or.inl, fun h => h.elim id ?_⟩, fun x hx => Or.inl hx⟩
    rintro rfl
    exact hname ▸ List.mem_map_of_mem hlisted

/-! ### The invariant -/

/-- `secure_filename` keeps the letters of a name, those of `.zip` at its end among them. -/
def Tools.KeepsZip (tools : Tools File) : Prop :=
  ∀ s, dotZip <:+ s → ['z', 'i', 'p'] <:+ (tools.secureFilename s).1

/-- A consistent app, with its default instrument in the file `default` and in the entries of the
list. -/
structure Inv (tools : Tools File) (d : Filename) (app : KoheronApp File) : Prop where
  consistent : Consistent d app
  isDefault : tools.isDefaultInstrument app.directory d = some true
  default_zip : isZip d.1
  flags : ∀ i ∈ app.instrumentsList, i.isDefault = true ↔ i.name = getNameFromZipfilename d.path

variable {tools : Tools File} {d : Filename} {app : KoheronApp File}

theorem Consistent.listed_iff (h : Consistent d app) {f : Filename} (hf : isZip f.1) :
    getNameFromZipfilename f.path ∈ app.instrumentsList.map Instrument.name ↔
      f ∈ app.directory.names := by
  rw [h.mem_iff]
  constructor
  · rintro ⟨g, hg, hzip, hname⟩
    exact getName_injective_of_isZip hzip hname ▸ hg
  · exact fun hmem => ⟨f, hmem, hf, rfl⟩

/-- No request touches the file `default`. -/
theorem Tools.KeepsZip.ne_default (htools : tools.KeepsZip) {s : Str} (h : dotZip <:+ s) :
    defaultFilename ≠ tools.secureFilename s := fun heq => by
  have hzip := htools s h
  rw [← heq] at hzip
  exact absurd hzip (by decide)

theorem dotZip_suffix_of_isZip {filename : Str} (h : isZip filename) : dotZip <:+ filename := by
  obtain ⟨hbase, -⟩ := splitext_eq_dotZip_iff.mp (Prod.ext rfl h)
  have hsuffix : basename filename <:+ filename := by
    rw [basename, ← List.reverse_prefix, List.reverse_reverse]
    exact List.takeWhile_prefix _
  exact (hbase ▸ List.suffix_append _ _).trans hsuffix

/-- The default instrument is the only one. -/
theorem isDefaultInstrument_eq {dir : Directory File}
    (h : tools.isDefaultInstrument dir d = some true) (f : Filename) :
    tools.isDefaultInstrument dir f = some (decide (f = d)) := by
  obtain ⟨file, hfile, hpath⟩ := Option.bind_eq_some_iff.mp h
  have hpath' := of_decide_eq_true (Option.some.inj hpath)
  rw [Tools.isDefaultInstrument, hfile, Option.bind_eq_bind, Option.bind_some, ← hpath']
  refine congrArg some (decide_eq_decide.mpr ⟨Filename.path_injective, ?_⟩)
  rintro rfl
  rfl

theorem isDefaultInstrument_congr {dir dir' : Directory File}
    (h : dir'.read defaultFilename = dir.read defaultFilename) (f : Filename) :
    tools.isDefaultInstrument dir' f = tools.isDefaultInstrument dir f := by
  rw [Tools.isDefaultInstrument, Tools.isDefaultInstrument, h]

/-- Of the instruments with one name, all are default ones or none. -/
theorem Inv.isDefault_eq (h : Inv tools d app) {i j : Instrument} (hi : i ∈ app.instrumentsList)
    (hj : j ∈ app.instrumentsList) (hij : i.name = j.name) : i.isDefault = j.isDefault := by
  rw [Bool.eq_iff_iff, h.flags i hi, h.flags j hj, hij]

/-! ### Deleting -/

/-- The directory after a `delete`. -/
def Directory.removed (dir : Directory File) (f : Filename) : Directory File :=
  if f ∈ dir.names then dir.remove f else dir

theorem Directory.mem_names_removed {dir : Directory File} {f g : Filename} :
    g ∈ (dir.removed f).names ↔ g ∈ dir.names ∧ g ≠ f := by
  rw [removed]
  split
  · exact mem_names_remove
  · rename_i hf
    exact ⟨fun h => ⟨h, fun heq => hf (heq ▸ h)⟩, And.left⟩

theorem Directory.read_removed_of_ne {dir : Directory File} {f g : Filename} (h : g ≠ f) :
    (dir.removed f).read g = dir.read g := by
  rw [removed]
  split
  · exact read_remove_of_ne h
  · rfl

/-- What a `delete` does: a listed instrument that is not the default one is removed, and the
file in any case. -/
theorem deleteInstrument_cases (h : Inv tools d app) (name : Str) :
    (∃ i ∈ app.instrumentsList, i.name = some name ∧ i.isDefault = false ∧
        (tools.deleteInstrument app name).1 =
          { app with
            directory := app.directory.removed (tools.secureFilename (name ++ dotZip))
            instrumentsList := app.instrumentsList.erase i }) ∨
      ((¬ ∃ i ∈ app.instrumentsList, i.name = some name ∧ i.isDefault = false) ∧
        (tools.deleteInstrument app name).1 =
          { app with
            directory := app.directory.removed (tools.secureFilename (name ++ dotZip)) }) := by
  have hdirectory : (if tools.secureFilename (name ++ dotZip) ∈ app.directory.names then
      { app with directory := app.directory.remove (tools.secureFilename (name ++ dotZip)) }
      else app) = { app with
        directory := app.directory.removed (tools.secureFilename (name ++ dotZip)) } := by
    rw [Directory.removed]
    split <;> rfl
  rcases hfind : app.instrumentsList.find? (·.name = some name) with _ | i
  · refine Or.inr ⟨?_, by simp only [Tools.deleteInstrument, hdirectory, hfind]⟩
    rintro ⟨i, hi, hname, -⟩
    exact List.find?_eq_none.mp hfind i hi (decide_eq_true hname)
  · have hi := List.mem_of_find?_eq_some hfind
    have hname : i.name = some name := by simpa using List.find?_some hfind
    rcases hdefault : i.isDefault with _ | _
    · refine Or.inl ⟨i, hi, hname, hdefault, ?_⟩
      simp only [Tools.deleteInstrument, hdirectory, hfind, hdefault]
      rfl
    · refine Or.inr ⟨?_, by simp only [Tools.deleteInstrument, hdirectory, hfind, hdefault]; rfl⟩
      rintro ⟨j, hj, hjname, hjdefault⟩
      rw [h.isDefault_eq hj hi (hjname.trans hname.symm), hdefault] at hjdefault
      exact absurd hjdefault.symm Bool.false_ne_true

/-- The file that a listed instrument comes from. -/
theorem Consistent.exists_file (h : Consistent d app) {i : Instrument}
    (hi : i ∈ app.instrumentsList) : ∃ f ∈ app.directory.names, isZip f.1 ∧
      getNameFromZipfilename f.path = i.name :=
  (h.mem_iff i.name).mp (List.mem_map_of_mem hi)

theorem name_notMem_erase {list : List Instrument} {i : Instrument}
    (hnodup : (list.map Instrument.name).Nodup) (hi : i ∈ list) (name : Option Str) :
    name ∈ (list.erase i).map Instrument.name ↔
      name ∈ list.map Instrument.name ∧ name ≠ i.name := by
  have hperm : (list.map Instrument.name).Perm
      (i.name :: (list.erase i).map Instrument.name) :=
    (List.perm_cons_erase hi).map Instrument.name
  obtain ⟨hnew, -⟩ := List.nodup_cons.mp (hperm.nodup_iff.mp hnodup)
  rw [hperm.mem_iff, List.mem_cons]
  constructor
  · exact fun hmem => ⟨Or.inr hmem, fun heq => hnew (heq ▸ hmem)⟩
  · exact fun h => h.1.resolve_left h.2

/-- A `delete` that is harmless keeps the app consistent. -/
theorem Inv.delete (htools : tools.KeepsZip) (h : Inv tools d app) {name : Str}
    (hharmless : Harmless tools app (.delete name)) :
    Inv tools d (tools.deleteInstrument app name).1 := by
  have hne := htools.ne_default (List.suffix_append name dotZip)
  have hread : (app.directory.removed (tools.secureFilename (name ++ dotZip))).read
      defaultFilename = app.directory.read defaultFilename := Directory.read_removed_of_ne hne
  have hdefault : tools.isDefaultInstrument
      (app.directory.removed (tools.secureFilename (name ++ dotZip))) d = some true :=
    (isDefaultInstrument_congr hread d).trans h.isDefault
  simp only [Harmless] at hharmless
  rcases deleteInstrument_cases h name with ⟨i, hi, hname, hflag, heq⟩ | ⟨hnone, heq⟩
  · rw [if_pos ⟨i, hi, hname, hflag⟩] at hharmless
    rw [heq]
    obtain ⟨f, hf, hfzip, hfname⟩ := h.consistent.exists_file hi
    -- the file of the instrument is the one that is removed
    obtain rfl : f = tools.secureFilename (name ++ dotZip) := by
      refine Subtype.ext (Eq.trans ?_ hharmless.symm)
      exact (getName_path_eq_some_iff.mp (hfname.trans hname)).1
    have hdname : getNameFromZipfilename d.path ≠ i.name := fun hd => by
      rw [(h.flags i hi).mpr hd.symm] at hflag
      exact absurd hflag.symm Bool.false_ne_true
    refine ⟨⟨?_, fun n => ?_, ?_, ?_, h.consistent.live⟩, hdefault, h.default_zip,
      fun j hj => h.flags j (List.mem_of_mem_erase hj)⟩
    · exact h.consistent.nodup.sublist (List.erase_sublist.map Instrument.name)
    · rw [name_notMem_erase h.consistent.nodup hi, h.consistent.mem_iff]
      constructor
      · rintro ⟨⟨g, hg, hgzip, hgname⟩, hn⟩
        refine ⟨g, Directory.mem_names_removed.mpr ⟨hg, fun heq => hn ?_⟩, hgzip, hgname⟩
        rw [← hgname, heq, hfname]
      · rintro ⟨g, hg, hgzip, hgname⟩
        obtain ⟨hg, hgne⟩ := Directory.mem_names_removed.mp hg
        refine ⟨⟨g, hg, hgzip, hgname⟩, fun hn => hgne ?_⟩
        exact getName_injective_of_isZip hgzip ((hgname.trans hn).trans hfname.symm)
    · exact (name_notMem_erase h.consistent.nodup hi _).mpr
        ⟨h.consistent.default_listed, hdname⟩
    · refine Directory.mem_names_removed.mpr ⟨h.consistent.default_present, fun heq => hdname ?_⟩
      rw [heq, hfname]
  · rw [if_neg hnone] at hharmless
    rw [heq]
    refine ⟨⟨h.consistent.nodup, fun n => ?_, h.consistent.default_listed, ?_,
      h.consistent.live⟩, hdefault, h.default_zip, h.flags⟩
    · rw [h.consistent.mem_iff]
      constructor
      · rintro ⟨g, hg, hgzip, hgname⟩
        refine ⟨g, Directory.mem_names_removed.mpr ⟨hg, ?_⟩, hgzip, hgname⟩
        rintro rfl
        exact hharmless ⟨hg, hgzip⟩
      · rintro ⟨g, hg, hgzip, hgname⟩
        exact ⟨g, (Directory.mem_names_removed.mp hg).1, hgzip, hgname⟩
    · refine Directory.mem_names_removed.mpr ⟨h.consistent.default_present, ?_⟩
      rintro rfl
      exact hharmless ⟨h.consistent.default_present, h.default_zip⟩

/-- A `delete` that is not harmless leaves a listed instrument without its file, or a file
without its entry. -/
theorem Inv.not_consistent_delete (h : Inv tools d app) {name : Str}
    (hharmful : ¬ Harmless tools app (.delete name)) :
    ¬ Consistent d (tools.deleteInstrument app name).1 := by
  intro hafter
  simp only [Harmless] at hharmful
  rcases deleteInstrument_cases h name with ⟨i, hi, hname, hflag, heq⟩ | ⟨hnone, heq⟩
  · rw [if_pos ⟨i, hi, hname, hflag⟩] at hharmful
    rw [heq] at hafter
    obtain ⟨f, hf, hfzip, hfname⟩ := h.consistent.exists_file hi
    have hfile := (getName_path_eq_some_iff.mp (hfname.trans hname)).1
    have hleft : f ∈ (app.directory.removed (tools.secureFilename (name ++ dotZip))).names := by
      refine Directory.mem_names_removed.mpr ⟨hf, ?_⟩
      rintro rfl
      exact hharmful hfile
    have hlisted := (hafter.listed_iff hfzip).mpr hleft
    exact ((name_notMem_erase h.consistent.nodup hi _).mp hlisted).2 hfname
  · rw [if_neg hnone, not_not] at hharmful
    rw [heq] at hafter
    obtain ⟨hmem, hzip⟩ := hharmful
    have hlisted := (h.consistent.listed_iff hzip).mpr hmem
    exact (Directory.mem_names_removed.mp ((hafter.listed_iff hzip).mp hlisted)).2 rfl

/-! ### Uploading -/

/-- What an `upload` does: the file is written, and the instrument is listed when its version can
be read. -/
theorem uploadInstrument_fst (htools : tools.KeepsZip) (h : Inv tools d app)
    {files : List (Str × File)} {upload : Str × File}
    (hfind : files.find? (fun upload => isZip upload.1) = some upload) :
    (tools.uploadInstrument app files).1 =
      { app with
        directory := app.directory.save (tools.secureFilename upload.1) upload.2
        instrumentsList := (tools.version (tools.secureFilename upload.1).path
            (some upload.2)).elim app.instrumentsList fun version =>
          uploadedList ⟨getNameFromZipfilename (tools.secureFilename upload.1).path, version,
            decide (tools.secureFilename upload.1 = d)⟩ app.instrumentsList } := by
  have hzip : isZip upload.1 := by simpa using List.find?_some hfind
  have hread : (app.directory.save (tools.secureFilename upload.1) upload.2).read
      defaultFilename = app.directory.read defaultFilename :=
    Directory.read_save_of_ne (htools.ne_default (dotZip_suffix_of_isZip hzip))
  have hdefault := isDefaultInstrument_eq ((isDefaultInstrument_congr hread d).trans h.isDefault)
    (tools.secureFilename upload.1)
  obtain ⟨filename, file⟩ := upload
  rcases hversion : tools.version (tools.secureFilename filename).path (some file) with _ | version
  · simp only [Tools.uploadInstrument, hfind, hdefault, Tools.getInstrumentDict,
      Directory.read_save_self, hversion]
    rfl
  · simp only [Tools.uploadInstrument, hfind, hdefault, Tools.getInstrumentDict,
      Directory.read_save_self, hversion]
    rfl

/-- An `upload` that is harmless keeps the app consistent. -/
theorem Inv.upload (htools : tools.KeepsZip) (h : Inv tools d app) {files : List (Str × File)}
    (hharmless : Harmless tools app (.upload files)) :
    Inv tools d (tools.uploadInstrument app files).1 := by
  rcases hfind : files.find? (fun upload => isZip upload.1) with _ | upload
  · have hsame : (tools.uploadInstrument app files).1 = app := by
      simp only [Tools.uploadInstrument, hfind]
    rwa [hsame]
  · have hzip : isZip upload.1 := by simpa using List.find?_some hfind
    have hread : (app.directory.save (tools.secureFilename upload.1) upload.2).read
        defaultFilename = app.directory.read defaultFilename :=
      Directory.read_save_of_ne (htools.ne_default (dotZip_suffix_of_isZip hzip))
    have hdefault := (isDefaultInstrument_congr hread d).trans h.isDefault
    have hpresent : ∀ {g}, g ∈ (app.directory.save (tools.secureFilename upload.1) upload.2).names ↔
        g ∈ app.directory.names ∨ g = tools.secureFilename upload.1 := Directory.mem_names_save
    have hcondition := hharmless upload hfind
    rw [uploadInstrument_fst htools h hfind]
    generalize tools.secureFilename upload.1 = f at *
    rcases hversion : tools.version f.path (some upload.2) with _ | version
    · -- the list stays, so that the file must be no zip file or an old one
      rw [hversion] at hcondition
      refine ⟨⟨h.consistent.nodup, fun n => ?_, h.consistent.default_listed,
        hpresent.mpr (Or.inl h.consistent.default_present), h.consistent.live⟩, hdefault,
        h.default_zip, h.flags⟩
      refine (h.consistent.mem_iff n).trans ⟨?_, ?_⟩
      · rintro ⟨g, hg, hgzip, hgname⟩
        exact ⟨g, hpresent.mpr (Or.inl hg), hgzip, hgname⟩
      · rintro ⟨g, hg, hgzip, hgname⟩
        rcases hpresent.mp hg with hold | rfl
        · exact ⟨g, hold, hgzip, hgname⟩
        · rw [if_pos hgzip] at hcondition
          exact ⟨g, hcondition.resolve_left (not_not_intro rfl), hgzip, hgname⟩
    · rw [hversion] at hcondition
      have hfzip : isZip f.1 := by
        by_contra hnot
        rw [if_neg hnot] at hcondition
        exact Option.some_ne_none version hcondition
      obtain ⟨hnodup, hmem, hold⟩ := uploadedList_spec
        ⟨getNameFromZipfilename f.path, version, decide (f = d)⟩ h.consistent.nodup
      refine ⟨⟨hnodup, fun n => ?_, (hmem _).mpr (Or.inl h.consistent.default_listed),
        hpresent.mpr (Or.inl h.consistent.default_present), h.consistent.live⟩, hdefault,
        h.default_zip, fun i hi => ?_⟩
      · refine (hmem n).trans ?_
        rw [h.consistent.mem_iff]
        constructor
        · rintro (⟨g, hg, hgzip, hgname⟩ | rfl)
          · exact ⟨g, hpresent.mpr (Or.inl hg), hgzip, hgname⟩
          · exact ⟨f, hpresent.mpr (Or.inr rfl), hfzip, rfl⟩
        · rintro ⟨g, hg, hgzip, hgname⟩
          rcases hpresent.mp hg with hold | rfl
          · exact Or.inl ⟨g, hold, hgzip, hgname⟩
          · exact Or.inr hgname.symm
      · rcases hold i hi with hlisted | rfl
        · exact h.flags i hlisted
        · rw [decide_eq_true_iff]
          exact ⟨fun heq => heq ▸ rfl, getName_injective_of_isZip hfzip⟩

/-- An `upload` that is not harmless leaves a file without its entry, or an entry without a
name. -/
theorem Inv.not_consistent_upload (htools : tools.KeepsZip) (h : Inv tools d app)
    {files : List (Str × File)} (hharmful : ¬ Harmless tools app (.upload files)) :
    ¬ Consistent d (tools.uploadInstrument app files).1 := by
  intro hafter
  have hexists : ∃ upload, files.find? (fun upload => isZip upload.1) = some upload ∧
      ¬ (if isZip (tools.secureFilename upload.1).1 then
        tools.version (tools.secureFilename upload.1).path (some upload.2) ≠ none ∨
          tools.secureFilename upload.1 ∈ app.directory.names
      else tools.version (tools.secureFilename upload.1).path (some upload.2) = none) := by
    by_contra hnone
    exact hharmful fun upload hfind => by
      by_contra hcondition
      exact hnone ⟨upload, hfind, hcondition⟩
  obtain ⟨upload, hfind, hcondition⟩ := hexists
  rw [uploadInstrument_fst htools h hfind] at hafter
  have hpresent : ∀ {g}, g ∈ (app.directory.save (tools.secureFilename upload.1) upload.2).names ↔
      g ∈ app.directory.names ∨ g = tools.secureFilename upload.1 := Directory.mem_names_save
  generalize tools.secureFilename upload.1 = f at *
  by_cases hzip : isZip f.1
  · rw [if_pos hzip, not_or, not_not] at hcondition
    obtain ⟨hversion, hnew⟩ := hcondition
    rw [hversion] at hafter
    have hlisted := (hafter.listed_iff hzip).mpr (hpresent.mpr (Or.inr rfl))
    exact hnew ((h.consistent.listed_iff hzip).mp hlisted)
  · rw [if_neg hzip] at hcondition
    obtain ⟨version, hversion⟩ := Option.ne_none_iff_exists'.mp hcondition
    rw [hversion] at hafter
    obtain ⟨-, hmem, -⟩ := uploadedList_spec
      ⟨getNameFromZipfilename f.path, version, decide (f = d)⟩ h.consistent.nodup
    obtain ⟨g, -, hgzip, hgname⟩ := (hafter.mem_iff _).mp ((hmem _).mpr (Or.inr rfl))
    exact hzip (getName_injective_of_isZip hgzip hgname ▸ hgzip)

/-! ### Running -/

/-- The app after the installer was started. -/
def KoheronApp.ran (app : KoheronApp File) (instrument : Instrument) (status : ℤ) :
    KoheronApp File :=
  { app.install instrument status with liveInstrument := some instrument }

theorem lastSucceeded_ran (app : KoheronApp File) (instrument : Instrument) (status : ℤ) :
    (app.ran instrument status).lastSucceeded
      = if status = 0 then some instrument else app.lastSucceeded := by
  show (((app.installs ++ [(instrument, status)]).filter (·.2 = 0)).getLast?).map Prod.fst = _
  rw [List.filter_append]
  split
  · rename_i hzero
    rw [List.filter_cons_of_pos (by simpa using hzero), List.filter_nil, List.getLast?_concat]
    rfl
  · rename_i hzero
    rw [List.filter_cons_of_neg (by simpa using hzero), List.filter_nil, List.append_nil]
    rfl

/-- What `run_instrument` does: nothing, or the installer is started. -/
theorem runInstrument_cases {f : Filename} {instrument : Instrument} {status : ℤ}
    {ran : KoheronApp File × Bool} (h : app.runInstrument f instrument status = some ran) :
    (f ∉ app.directory.names ∧ ran = (app, false)) ∨
      (f ∈ app.directory.names ∧ isZip f.1 ∧ ran = (app.ran instrument status, true)) := by
  rw [KoheronApp.runInstrument] at h
  split at h
  · rename_i hmem
    obtain ⟨name, hname, hran⟩ := Option.bind_eq_some_iff.mp h
    exact Or.inr ⟨hmem, (isZip_iff f).mpr ⟨name, hname⟩, (Option.some.inj hran).symm⟩
  · rename_i hmem
    exact Or.inl ⟨hmem, (Option.some.inj h).symm⟩

theorem runInstrument_ne_none {f : Filename} (hzip : isZip f.1) {instrument : Instrument}
    {status : ℤ} : app.runInstrument f instrument status ≠ none := by
  obtain ⟨name, hname⟩ := (isZip_iff f).mp hzip
  rw [KoheronApp.runInstrument, hname]
  split
  · exact Option.some_ne_none _
  · exact Option.some_ne_none _

/-- **A run** starts the installer for its instrument, or does nothing. -/
theorem runRoute_fst (tools : Tools File) (app : KoheronApp File) (name : Str) (status : ℤ) :
    (tools.runRoute app name status).1
      = (tools.installed app name).elim app fun instrument => app.ran instrument status := by
  rcases hdefault : tools.isDefaultInstrument app.directory
    (tools.secureFilename (tools.secureFilename (name ++ dotZip)).path) with _ | isDefault
  · simp only [Tools.runRoute, Tools.installed, hdefault, Option.bind_eq_bind, Option.bind_none]
    rfl
  rcases hdict : tools.getInstrumentDict app.directory (tools.secureFilename (name ++ dotZip))
    isDefault with _ | instrument
  · simp only [Tools.runRoute, Tools.installed, hdefault, hdict, Option.bind_eq_bind,
      Option.bind_some]
    rfl
  have hinstalled : tools.installed app name
      = if tools.secureFilename (name ++ dotZip) ∈ app.directory.names ∧
          isZip (tools.secureFilename (name ++ dotZip)).1 then some instrument else none := by
    simp only [Tools.installed, hdefault, hdict, Option.bind_eq_bind, Option.bind_some]
  rcases hran : app.runInstrument (tools.secureFilename (name ++ dotZip)) instrument status
    with _ | ran
  · -- a file that is there and has no name
    rw [hinstalled, if_neg fun h => runInstrument_ne_none h.2 hran]
    simp only [Tools.runRoute, hdefault, hdict, Option.bind_eq_bind, Option.bind_some, hran]
    rfl
  · simp only [Tools.runRoute, hdefault, hdict, Option.bind_eq_bind, Option.bind_some, hran]
    rcases runInstrument_cases hran with ⟨hmem, rfl⟩ | ⟨hmem, hzip, rfl⟩
    · rw [hinstalled, if_neg fun h => hmem h.1]
      rfl
    · rw [hinstalled, if_pos ⟨hmem, hzip⟩]
      rfl

theorem Inv.ran (h : Inv tools d app) (instrument : Instrument) {status : ℤ}
    (hstatus : status = 0 ∨ app.liveInstrument = some instrument) :
    Inv tools d (app.ran instrument status) := by
  refine ⟨⟨h.consistent.nodup, h.consistent.mem_iff, h.consistent.default_listed,
    h.consistent.default_present, ?_⟩, h.isDefault, h.default_zip, h.flags⟩
  rw [lastSucceeded_ran]
  split
  · rfl
  · rename_i hnonzero
    exact (hstatus.resolve_left hnonzero).symm.trans h.consistent.live

/-- A `run` that is harmless keeps the app consistent. -/
theorem Inv.run (h : Inv tools d app) {name : Str} {status : ℤ}
    (hharmless : Harmless tools app (.run name status)) :
    Inv tools d (tools.runRoute app name status).1 := by
  rw [runRoute_fst]
  rcases hinstalled : tools.installed app name with _ | instrument
  · exact h
  · exact h.ran instrument (hharmless.imp_right fun hlive => hlive instrument hinstalled)

/-- A `run` that is not harmless leaves an instrument live whose installer has failed. -/
theorem Inv.not_consistent_run (h : Inv tools d app) {name : Str} {status : ℤ}
    (hharmful : ¬ Harmless tools app (.run name status)) :
    ¬ Consistent d (tools.runRoute app name status).1 := by
  obtain ⟨hstatus, hother⟩ := not_or.mp hharmful
  rw [runRoute_fst]
  rcases hinstalled : tools.installed app name with _ | instrument
  · exact absurd (fun i hi => absurd (hinstalled.symm.trans hi) (Option.some_ne_none i).symm) hother
  · intro hafter
    have hlive : some instrument = (app.ran instrument status).lastSucceeded := hafter.live
    rw [lastSucceeded_ran, if_neg hstatus, ← h.consistent.live] at hlive
    refine hother fun i hi => ?_
    obtain rfl := Option.some.inj (hinstalled.symm.trans hi)
    exact hlive.symm

/-! ### Starting -/

@[simp] theorem directory_listed (app : KoheronApp File) (instrument : Instrument) :
    (app.listed instrument).directory = app.directory := by
  rw [KoheronApp.listed]
  split <;> rfl

@[simp] theorem liveInstrument_listed (app : KoheronApp File) (instrument : Instrument) :
    (app.listed instrument).liveInstrument = app.liveInstrument := by
  rw [KoheronApp.listed]
  split <;> rfl

@[simp] theorem lastSucceeded_listed (app : KoheronApp File) (instrument : Instrument) :
    (app.listed instrument).lastSucceeded = app.lastSucceeded := by
  rw [KoheronApp.listed]
  split <;> rfl

/-- One turn of `init_instruments`: the instrument is listed, and the default one is run. -/
theorem initLoop_cons (hd : tools.isDefaultInstrument app.directory d = some true) {status : ℤ}
    {f : Filename} {filenames : List Filename} {app' : KoheronApp File}
    (h : tools.initLoop status app (f :: filenames) = some app') :
    ∃ instrument app₁, instrument.name = getNameFromZipfilename f.path ∧
      instrument.isDefault = decide (f = d) ∧
      (app₁ = app.listed instrument ∧ ¬ (f = d ∧ f ∈ app.directory.names) ∨
        app₁ = (app.listed instrument).ran instrument status) ∧
      tools.initLoop status app₁ filenames = some app' := by
  obtain ⟨isDefault, hdefault, h⟩ := Option.bind_eq_some_iff.mp h
  obtain rfl := Option.some.inj ((isDefaultInstrument_eq hd f).symm.trans hdefault)
  obtain ⟨instrument, hinstrument, h⟩ := Option.bind_eq_some_iff.mp h
  obtain ⟨version, -, hversion⟩ := Option.bind_eq_some_iff.mp hinstrument
  obtain rfl := Option.some.inj hversion
  refine ⟨⟨getNameFromZipfilename f.path, version, decide (f = d)⟩, ?_⟩
  split at h
  · obtain ⟨ran, hran, h⟩ := Option.bind_eq_some_iff.mp h
    rcases runInstrument_cases hran with ⟨hmem, rfl⟩ | ⟨-, -, rfl⟩
    · rw [directory_listed] at hmem
      exact ⟨_, rfl, rfl, Or.inl ⟨rfl, fun hf => hmem hf.2⟩, h⟩
    · exact ⟨_, rfl, rfl, Or.inr rfl, h⟩
  · rename_i hne
    exact ⟨_, rfl, rfl, Or.inl ⟨rfl, fun hf => hne (decide_eq_true hf.1)⟩, h⟩

/-- What listing and running an instrument keep is kept by `init_instruments`. -/
theorem initLoop_keeps {status : ℤ} {P : KoheronApp File → Prop}
    (hlisted : ∀ app instrument, P app → P (app.listed instrument))
    (hran : ∀ app instrument, P app → P (app.ran instrument status))
    (hd : tools.isDefaultInstrument app.directory d = some true) (happ : P app)
    {filenames : List Filename} {app' : KoheronApp File}
    (h : tools.initLoop status app filenames = some app') : P app' := by
  induction filenames generalizing app with
  | nil => exact Option.some.inj h ▸ happ
  | cons f filenames ih =>
    obtain ⟨instrument, app₁, -, -, ⟨rfl, -⟩ | rfl, hrest⟩ := initLoop_cons hd h
    · exact ih (directory_listed app instrument ▸ hd) (hlisted app instrument happ) hrest
    · exact ih (directory_listed app instrument ▸ hd) (hran _ instrument (hlisted app _ happ)) hrest

/-- The default instrument is run, so that one is live. -/
theorem liveInstrument_initLoop {status : ℤ}
    (hd : tools.isDefaultInstrument app.directory d = some true) (hmem : d ∈ app.directory.names)
    {filenames : List Filename} {app' : KoheronApp File} (hfilenames : d ∈ filenames)
    (h : tools.initLoop status app filenames = some app') : app'.liveInstrument ≠ none := by
  induction filenames generalizing app with
  | nil => cases hfilenames
  | cons f filenames ih =>
    obtain ⟨instrument, app₁, -, -, ⟨rfl, hother⟩ | rfl, hrest⟩ := initLoop_cons hd h
    · have hrest' : d ∈ filenames := (List.mem_cons.mp hfilenames).resolve_left fun heq =>
        hother (heq ▸ ⟨rfl, hmem⟩)
      exact ih (directory_listed app instrument ▸ hd) (directory_listed app instrument ▸ hmem)
        hrest' hrest
    · refine initLoop_keeps (P := fun app => app.liveInstrument ≠ none) (d := d) ?_
        (fun _ instrument _ => Option.some_ne_none instrument)
        (directory_listed app instrument ▸ hd) (Option.some_ne_none instrument) hrest
      intro app instrument happ
      rwa [liveInstrument_listed]

/-- The entries know which of them is the default instrument. -/
def Flagged (d : Filename) (list : List Instrument) : Prop :=
  ∀ i ∈ list, i.isDefault = true ↔ i.name = getNameFromZipfilename d.path

theorem listed_names (app : KoheronApp File) (instrument : Instrument) :
    (app.listed instrument).instrumentsList.map Instrument.name
      = app.instrumentsList.map Instrument.name ++ instrument.name.toList.map some := by
  rw [KoheronApp.listed]
  rcases hname : instrument.name with _ | name
  · rw [if_neg (not_not_intro rfl)]
    exact (List.append_nil _).symm
  · rw [if_pos (Option.some_ne_none name)]
    show (app.instrumentsList ++ [instrument]).map Instrument.name = _
    rw [List.map_append, List.map_singleton, hname]
    rfl

theorem flagged_listed {f : Filename} {instrument : Instrument}
    (hname : instrument.name = getNameFromZipfilename f.path)
    (hflag : instrument.isDefault = decide (f = d)) (h : Flagged d app.instrumentsList) :
    Flagged d (app.listed instrument).instrumentsList := by
  rw [KoheronApp.listed]
  split
  · rename_i hsome
    intro i hi
    rcases List.mem_append.mp hi with hold | hnew
    · exact h i hold
    · obtain ⟨name, hf⟩ := Option.ne_none_iff_exists'.mp hsome
      rw [List.mem_singleton.mp hnew, hflag, hname, decide_eq_true_iff]
      exact ⟨fun heq => heq ▸ rfl,
        getName_injective_of_isZip ((isZip_iff f).mpr ⟨name, hname.symm.trans hf⟩)⟩
  · exact h

/-- **What `init_instruments` has done** after some files: their names are listed. -/
theorem initLoop_spec {status : ℤ} {filenames : List Filename} {app' : KoheronApp File}
    (hd : tools.isDefaultInstrument app.directory d = some true)
    (h : tools.initLoop status app filenames = some app') :
    app'.directory = app.directory ∧
      app'.instrumentsList.map Instrument.name = app.instrumentsList.map Instrument.name
        ++ (filenames.filterMap fun f => getNameFromZipfilename f.path).map some ∧
      (Flagged d app.instrumentsList → Flagged d app'.instrumentsList) := by
  induction filenames generalizing app with
  | nil =>
    obtain rfl := Option.some.inj h
    exact ⟨rfl, (List.append_nil _).symm, id⟩
  | cons f filenames ih =>
    obtain ⟨instrument, app₁, hname, hflag, happ, hrest⟩ := initLoop_cons hd h
    have hfirst : app₁.directory = app.directory ∧
        app₁.instrumentsList = (app.listed instrument).instrumentsList := by
      rcases happ with ⟨rfl, -⟩ | rfl
      · exact ⟨directory_listed app instrument, rfl⟩
      · exact ⟨directory_listed app instrument, rfl⟩
    obtain ⟨hdirectory₁, hlist₁⟩ := hfirst
    obtain ⟨hdirectory', hnames', hflags'⟩ := ih (hdirectory₁ ▸ hd) hrest
    refine ⟨hdirectory'.trans hdirectory₁, ?_, fun hflagged => hflags' ?_⟩
    · rw [hnames', hlist₁, listed_names, hname, List.append_assoc, List.filterMap_cons]
      cases getNameFromZipfilename f.path <;> rfl
    · rw [hlist₁]
      exact flagged_listed hname hflag hflagged

/-- After `init_instruments` the live instrument is the one that was installed, exactly if its
installer has not failed. -/
theorem live_initInstruments_iff {dir : Directory File} {status : ℤ}
    (hd : DefaultPresent tools dir d) (hinit : tools.initInstruments dir status = some app) :
    app.liveInstrument = app.lastSucceeded ↔ status = 0 := by
  constructor
  · intro hlive
    by_contra hstatus
    have hnone : app.lastSucceeded = none := by
      refine initLoop_keeps (P := fun app => app.lastSucceeded = none) (d := d) ?_ ?_
        hd.isDefault rfl hinit
      · intro app instrument happ
        rwa [lastSucceeded_listed]
      · intro app instrument happ
        rwa [lastSucceeded_ran, if_neg hstatus]
    have hmem : d ∈ dir.names.filter fun f => dotZip.isSuffixOf f.1 :=
      List.mem_filter.mpr
        ⟨hd.mem, List.isSuffixOf_iff_suffix.mpr (dotZip_suffix_of_isZip hd.isZip)⟩
    exact liveInstrument_initLoop hd.isDefault hd.mem hmem hinit (hlive.trans hnone)
  · intro hstatus
    refine initLoop_keeps (P := fun app => app.liveInstrument = app.lastSucceeded) (d := d) ?_ ?_
      hd.isDefault rfl hinit
    · intro app instrument happ
      rwa [liveInstrument_listed, lastSucceeded_listed]
    · intro app instrument _
      rw [lastSucceeded_ran, if_pos hstatus]
      rfl

/-- **The app starts consistent** where the installer of the default instrument does not fail. -/
theorem inv_of_initInstruments {dir : Directory File} {status : ℤ}
    (hd : DefaultPresent tools dir d) (hinit : tools.initInstruments dir status = some app)
    (hstatus : status = 0) : Inv tools d app := by
  obtain ⟨hdirectory, hnames, hflags⟩ := initLoop_spec hd.isDefault hinit
  have hmem : ∀ name, name ∈ app.instrumentsList.map Instrument.name ↔
      ∃ f ∈ dir.names, isZip f.1 ∧ getNameFromZipfilename f.path = name := by
    intro name
    rw [hnames]
    simp only [List.map_nil, List.nil_append, List.mem_map, List.mem_filterMap, List.mem_filter]
    constructor
    · rintro ⟨n, ⟨f, ⟨hf, -⟩, hfname⟩, rfl⟩
      exact ⟨f, hf, (isZip_iff f).mpr ⟨n, hfname⟩, hfname⟩
    · rintro ⟨f, hf, hzip, rfl⟩
      obtain ⟨n, hn⟩ := (isZip_iff f).mp hzip
      exact ⟨n, ⟨f, ⟨hf, List.isSuffixOf_iff_suffix.mpr (dotZip_suffix_of_isZip hzip)⟩, hn⟩,
        hn.symm⟩
  refine ⟨⟨?_, fun name => ?_, (hmem _).mpr ⟨d, hd.mem, hd.isZip, rfl⟩, ?_,
    (live_initInstruments_iff hd hinit).mpr hstatus⟩, ?_, hd.isZip,
    hflags fun i hi => absurd hi List.not_mem_nil⟩
  · rw [hnames]
    refine List.Nodup.map (Option.some_injective Str) (List.Nodup.filterMap ?_ ?_)
    · exact fun f g name hf hg => getName_injective hf hg
    · exact dir.nodup.filter _
  · rw [hdirectory]
    exact hmem name
  · rw [hdirectory]
    exact hd.mem
  · rw [hdirectory]
    exact hd.isDefault

/-! ### The exact condition -/

/-- A harmless request keeps the app consistent. -/
theorem Inv.handle (htools : tools.KeepsZip) (h : Inv tools d app) {request : Request File}
    (hharmless : Harmless tools app request) : Inv tools d (tools.handle app request).1 := by
  cases request with
  | run name status => exact h.run hharmless
  | delete name => exact h.delete htools hharmless
  | upload files => exact h.upload htools hharmless

/-- A harmful request does not. -/
theorem Inv.not_consistent_handle (htools : tools.KeepsZip) (h : Inv tools d app)
    {request : Request File} (hharmful : ¬ Harmless tools app request) :
    ¬ Consistent d (tools.handle app request).1 := by
  cases request with
  | run name status => exact h.not_consistent_run hharmful
  | delete name => exact h.not_consistent_delete hharmful
  | upload files => exact h.not_consistent_upload htools hharmful

theorem exists_run (tools : Tools File) (app : KoheronApp File) (requests : List (Request File)) :
    ∃ app', run tools.step app requests = some app' := by
  induction requests generalizing app with
  | nil => exact ⟨app, rfl⟩
  | cons request requests ih => exact ih (tools.handle app request).1

/-- **The exact condition of consistency.**  From `init_instruments` on, every state in a
sequence of requests is consistent exactly if the installer has not failed at the start and every
request is harmless. -/
theorem consistent_iff_harmless (tools : Tools File) (htools : tools.KeepsZip)
    (dir : Directory File) (d : Filename) (hd : DefaultPresent tools dir d) (status : ℤ)
    (app : KoheronApp File) (hinit : tools.initInstruments dir status = some app)
    (requests : List (Request File)) :
    Throughout tools.step (Consistent d) app requests ↔
      status = 0 ∧ Along tools.step (Harmless tools) app requests := by
  obtain ⟨app', hrun⟩ := exists_run tools app requests
  have hharmless : status = 0 → (Throughout tools.step (Consistent d) app requests ↔
      Along tools.step (Harmless tools) app requests) := by
    intro hstatus
    refine throughout_iff_along_of_invariant (I := Inv tools d) (fun _ h => h.consistent) ?_ ?_
      (inv_of_initInstruments hd hinit hstatus) hrun
    · intro s request s' h hharmless hstep
      obtain rfl := Option.some.inj hstep
      exact h.handle htools hharmless
    · intro s request s' h hharmful hstep
      obtain rfl := Option.some.inj hstep
      exact h.not_consistent_handle htools hharmful
  constructor
  · intro h
    have hstatus := (live_initInstruments_iff hd hinit).mp h.head.live
    exact ⟨hstatus, (hharmless hstatus).mp h⟩
  · exact fun h => (hharmless h.1).mpr h.2

instance (tools : Tools File) (app : KoheronApp File) :
    (request : Request File) → Decidable (Harmless tools app request)
  | .run name status =>
    inferInstanceAs (Decidable (status = 0 ∨
      ∀ instrument ∈ tools.installed app name, app.liveInstrument = some instrument))
  | .delete name =>
    inferInstanceAs (Decidable
      (if ∃ i ∈ app.instrumentsList, i.name = some name ∧ i.isDefault = false then
        (tools.secureFilename (name ++ dotZip)).1 = name ++ dotZip
      else ¬ (tools.secureFilename (name ++ dotZip) ∈ app.directory.names ∧
        isZip (tools.secureFilename (name ++ dotZip)).1)))
  | .upload files =>
    match hfind : files.find? fun upload => isZip upload.1 with
    | none => isTrue fun _ h => absurd (hfind.symm.trans h).symm (Option.some_ne_none _)
    | some upload =>
      decidable_of_iff (if isZip (tools.secureFilename upload.1).1 then
        tools.version (tools.secureFilename upload.1).path (some upload.2) ≠ none ∨
          tools.secureFilename upload.1 ∈ app.directory.names
      else tools.version (tools.secureFilename upload.1).path (some upload.2) = none)
        ⟨fun h _ hu => Option.some.inj (hfind.symm.trans hu) ▸ h, fun h => h upload hfind⟩

/-- The characters that `secure_filename` takes from both ends. -/
def stripped (c : Char) : Bool := c = '.' || c = '_'

/-- `secure_filename` of an ASCII string with no two separators in a row. -/
def asciiSecureFilename (s : Str) : Filename :=
  ⟨strip stripped ((s.map fun c => if c = ' ' ∨ c = '/' then '_' else c).filter fun c =>
    c.isAlphanum || c = '_' || c = '.' || c = '-'), fun h => by
    have hmem : '/' ∈ (s.map fun c => if c = ' ' ∨ c = '/' then '_' else c).filter fun c =>
        c.isAlphanum || c = '_' || c = '.' || c = '-' :=
      List.dropWhile_suffix _ |>.mem (List.mem_reverse.mp
        (List.dropWhile_suffix _ |>.mem (List.mem_reverse.mp h)))
    exact absurd (List.mem_filter.mp hmem).2 (by decide)⟩

theorem zip_suffix_strip {s : Str} (h : ['z', 'i', 'p'] <:+ s) :
    ['z', 'i', 'p'] <:+ strip stripped s := by
  obtain ⟨t, rfl⟩ := h
  have hfront : ∃ t', (t ++ ['z', 'i', 'p']).dropWhile stripped = t' ++ ['z', 'i', 'p'] := by
    rw [List.dropWhile_append]
    split
    · exact ⟨[], rfl⟩
    · exact ⟨_, rfl⟩
  obtain ⟨t', ht'⟩ := hfront
  rw [strip, ht', List.reverse_append]
  show _ <:+ (['p', 'i', 'z'] ++ t'.reverse).reverse
  rw [List.reverse_append, List.reverse_reverse]
  exact List.suffix_append t' _

/-- The first line that `unzip` prints, and the only one for a file that is no archive. -/
def archiveLine (zipFilename : Str) : List UInt8 :=
  ("Archive:  ".toList ++ zipFilename ++ ['\n']).flatMap String.utf8EncodeChar

/-- Tools for files that are texts and no archives. -/
def plainTools : Tools Str where
  secureFilename := asciiSecureFilename
  unzipList zipFilename _ := archiveLine zipFilename
  unzipContent zipFilename _ _ := archiveLine zipFilename
  text file := file

theorem plainTools_keepsZip : plainTools.KeepsZip := by
  rintro _ ⟨t, rfl⟩
  refine zip_suffix_strip ?_
  rw [List.map_append, List.filter_append]
  exact (show ['z', 'i', 'p'] <:+ dotZip from ⟨['.'], rfl⟩).trans (List.suffix_append _ _)

/-- The file of an instrument. -/
def ledBlinkerZip : Filename := ⟨"led-blinker.zip".toList, by decide⟩

/-- A store with one instrument, the default one. -/
def ledBlinkerStore : Directory Str where
  entries := [(defaultFilename, "led-blinker.zip\n".toList), (ledBlinkerZip, [])]
  nodup := by decide

theorem ledBlinkerStore_default : DefaultPresent plainTools ledBlinkerStore ledBlinkerZip :=
  ⟨by decide, by decide, by decide⟩

/-- Its instrument. -/
def ledBlinker : Instrument := ⟨some "led-blinker".toList, "0.0.0".toList, true⟩

/-- The app that has started. -/
def ledBlinkerApp : KoheronApp Str :=
  ⟨ledBlinkerStore, [ledBlinker], some ledBlinker, [(ledBlinker, 0)]⟩

theorem initInstruments_ledBlinkerStore :
    plainTools.initInstruments ledBlinkerStore 0 = some ledBlinkerApp := by
  rfl

/-- An instrument is uploaded, run and deleted. -/
theorem consistent_iff_harmless_upload :
    Throughout plainTools.step (Consistent ledBlinkerZip) ledBlinkerApp
      [.upload [("spectrum.zip".toList, [])], .run "spectrum".toList 0,
        .delete "spectrum".toList] :=
  (consistent_iff_harmless plainTools plainTools_keepsZip ledBlinkerStore ledBlinkerZip
    ledBlinkerStore_default 0 ledBlinkerApp initInstruments_ledBlinkerStore _).mpr
    ⟨rfl, by decide +kernel⟩

/-- The default instrument is deleted. -/
theorem not_harmless_delete_default :
    ¬ Harmless plainTools ledBlinkerApp (.delete "led-blinker".toList) := by decide +kernel

theorem not_consistent :
    ¬ ∀ (File : Type) (tools : Tools File), tools.KeepsZip → ∀ (dir : Directory File)
      (d : Filename), DefaultPresent tools dir d → ∀ status app,
      tools.initInstruments dir status = some app → ∀ requests : List (Request File),
        Throughout tools.step (Consistent d) app requests := by
  intro h
  have hrun := h Str plainTools plainTools_keepsZip ledBlinkerStore ledBlinkerZip
    ledBlinkerStore_default 0 ledBlinkerApp initInstruments_ledBlinkerStore
    [.delete "led-blinker".toList]
  exact (inv_of_initInstruments ledBlinkerStore_default
    initInstruments_ledBlinkerStore rfl).not_consistent_handle plainTools_keepsZip
    not_harmless_delete_default (hrun.2 _ rfl)

end Instruments
end KoheronSdk
