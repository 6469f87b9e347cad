import IpfsMobile.Core.Node
import IpfsMobile.Core.Shell
import IpfsMobile.Go.Format

/-!
# Names for Unix domain sockets

`SockManager` owns a directory and hands out numbered socket paths in it. The length
check of `NewSockManager` measures a joined, cleaned path; the servers and shells
prepend `/unix/` to an absolute path instead, which leaves a second slash in the name.
The file determines the directories for which the check is enough.
-/

namespace IpfsMobile.Core

open Go

/-- `math.MaxUint32`. -/
def maxUint32 : BitVec 32 := 0xffffffff

/-- `maxSockFilename`. -/
def maxSockFilename : Str := formatUint36 maxUint32.toNat

/-- `UDSDir`. -/
def udsDir : Str := str "sock"

/-- `syscall.SizeofSockaddrAny` on Linux. -/
def sizeofSockaddrAny : ℕ := 112

/-- What `os.Stat` reports: a file, an error for which `os.IsNotExist` holds, or another error. -/
inductive StatResult where
  | present
  | notExist (e : Err)
  | failed (e : Err)
  deriving DecidableEq, Repr

/-- `os.IsNotExist` on the error of `os.Stat`. -/
def StatResult.isNotExist : StatResult → Bool
  | notExist _ => true
  | _ => false

/-- The answers of the operating system. -/
structure Os where
  /-- `os.Getwd`. -/
  getwd : Except Err Str
  /-- The working directory is an absolute path. -/
  getwd_isAbs : ∀ wd, getwd = .ok wd → Path.isAbs wd = true
  /-- `os.Stat`. -/
  stat : Str → StatResult
  /-- `os.RemoveAll`. -/
  removeAll : Str → Option Err
  /-- `os.MkdirAll`. -/
  mkdirAll : Str → ℕ → Option Err

/-- `errors.Wrap`. -/
def wrap (e : Err) (message : String) : Err := .other (str message ++ str ": " ++ e.error)

/-- `SockManager`. -/
structure SockManager where
  sockDirPath : Str
  counter : BitVec 32 := 0
  deriving DecidableEq, Repr

/-- The path whose length `NewSockManager` checks. -/
def maxSockPath (sockDirPath : Str) : Str := Path.join [str "/unix", sockDirPath, maxSockFilename]

/-- `NewSockManager`. -/
def newSockManager (os : Os) (path : Str) : Except Err SockManager :=
  match Path.abs os.getwd path with
  | .error e => .error e
  | .ok abspath =>
    match os.stat abspath with
    | .notExist e => .error (wrap e "sock parent folder doesn't exist")
    | _ =>
      let sockDirPath := Path.join [abspath, udsDir]
      if (maxSockPath sockDirPath).length > sizeofSockaddrAny then
        .error (.other (str "path length exceeded"))
      else
        match if (os.stat sockDirPath).isNotExist then none else os.removeAll sockDirPath with
        | some e => .error (wrap e "can't cleanup old sock folder")
        | none =>
          match os.mkdirAll sockDirPath 0o700 with
          | some e => .error (wrap e "can't create sock folder")
          | none => .ok { sockDirPath := sockDirPath }

/-- The file name for a value of the counter, padded to the length of the longest. -/
def sockFilename (counter : ℕ) : Str := padZeros maxSockFilename.length (formatUint36 counter)

/-- The part of `NewSockPath` under the lock: a file name, and the counter moves on. -/
def SockManager.takeFilename (sm : SockManager) : Except Err Str × SockManager :=
  if sm.counter = maxUint32 then (.error (.other (str "max number of socket exceeded")), sm)
  else (.ok (sockFilename sm.counter.toNat), { sm with counter := sm.counter + 1 })

/-- The part of `NewSockPath` after `os.Stat`: the path is returned if it is not in use. -/
def checkSockPath (sockPath : Str) : StatResult → Except Err Str
  | .notExist _ => .ok sockPath
  | .present => .error (.other (str "sock already exists: " ++ sockPath))
  | .failed e => .error (wrap e "can't create new sock")

/-- The path of a file name in the manager's directory. -/
def SockManager.sockPath (sm : SockManager) (filename : Str) : Str :=
  Path.join [sm.sockDirPath, filename]

/-- `NewSockPath`. -/
def SockManager.newSockPath (stat : Str → StatResult) (sm : SockManager) :
    Except Err Str × SockManager :=
  match sm.takeFilename with
  | (.error e, sm) => (.error e, sm)
  | (.ok filename, sm) => (checkSockPath (sm.sockPath filename) (stat (sm.sockPath filename)), sm)

/-- The socket name of a multiaddr `/unix/...`: the whole rest of the text, with the slash. -/
def unixSocketName (maddr : Str) : Str := maddr.drop (str "/unix").length

/-- The longest socket name for which `sun_path` has room, with the terminator. -/
def maxSocketName : ℕ := 107

/-- The names that `ServeUnixSocketAPI` and `NewUDSShell` make of a path are not too long. -/
def Servable (p : Str) : Prop :=
  (∀ a ∈ (Node.ServeCall.serveUnixSocketAPI p).addresses,
    (unixSocketName a).length ≤ maxSocketName) ∧
  (unixSocketName (newUDSShell p).url).length ≤ maxSocketName

/-- The longest file name has seven characters. -/
@[simp] theorem length_maxSockFilename : maxSockFilename.length = 7 := by decide

/-- All file names have the length of the longest. -/
theorem length_sockFilename {counter : ℕ} (h : counter < 2 ^ 32) :
    (sockFilename counter).length = maxSockFilename.length := by
  refine length_padZeros (length_formatUint36_le ?_ ?_)
  · decide
  · exact h.trans (by rw [length_maxSockFilename]; norm_num)

/-- A file name has no slash. -/
theorem slash_not_mem_sockFilename (counter : ℕ) : Path.slash ∉ sockFilename counter := by
  intro h
  obtain ⟨d, hd, heq⟩ := exists_digit_of_mem_padZeros h
  exact (digit_spec d hd).2.2 (by rw [← heq]; rfl)

/-- A text that is not short and has no slash is a plain path component. -/
theorem plain_of_length {name : Str} (hlen : 2 < name.length) (hslash : Path.slash ∉ name) :
    Path.Plain name where
  ne_nil := by
    rintro rfl
    simp at hlen
  ne_dot := by
    rintro rfl
    exact absurd hlen (by decide)
  ne_dotdot := by
    rintro rfl
    exact absurd hlen (by decide)
  no_slash := hslash

/-- The directory of a manager: the cleaned parent with `sock` in it. -/
structure SockDir (abspath sockDirPath : Str) : Prop where
  /-- The parent is the root or a list of plain components. -/
  parent : ∃ cs, (∀ c ∈ cs, Path.Plain c) ∧ abspath = Path.absolute cs ∧
    sockDirPath = Path.absolute (cs ++ [udsDir])

theorem plain_udsDir : Path.Plain udsDir := plain_of_length (by decide) (by decide)

theorem plain_maxSockFilename : Path.Plain maxSockFilename :=
  plain_of_length (by decide) (by decide)

/-- `filepath.Join` puts the directory in a clean parent. -/
theorem sockDir_join {os : Os} {path abspath : Str} (h : Path.abs os.getwd path = .ok abspath) :
    SockDir abspath (Path.join [abspath, udsDir]) := by
  obtain ⟨cs, hcs, rfl⟩ := Path.cleanAbs_of_abs os.getwd_isAbs h
  exact ⟨cs, hcs, rfl, Path.join_absolute hcs plain_udsDir⟩

namespace SockDir

variable {abspath dir : Str}

/-- A plain name in the directory comes after its path and a slash. -/
theorem join_eq (h : SockDir abspath dir) {name : Str} (hname : Path.Plain name) :
    Path.join [dir, name] = dir ++ Path.slash :: name := by
  obtain ⟨cs, hcs, -, rfl⟩ := h.parent
  rw [Path.join_absolute (List.forall_mem_append.mpr ⟨hcs, by simpa using plain_udsDir⟩) hname,
    Path.absolute_append_singleton (by simp)]

/-- The checked path has `/unix` in front and the longest file name at the end. -/
theorem length_maxSockPath (h : SockDir abspath dir) :
    (maxSockPath dir).length = dir.length + 13 := by
  obtain ⟨cs, hcs, -, rfl⟩ := h.parent
  have hplain : ∀ c ∈ cs ++ [udsDir], Path.Plain c :=
    List.forall_mem_append.mpr ⟨hcs, by simpa using plain_udsDir⟩
  have hunix : Path.Plain (str "unix") := plain_of_length (by decide) (by decide)
  have hroot : str "/unix" = Path.slash :: str "unix" := by decide
  rw [maxSockPath, hroot, Path.join_root_absolute hunix hplain plain_maxSockFilename,
    Path.absolute_append_singleton (by simp), Path.absolute_cons _ (by simp)]
  simp only [List.length_append, List.length_cons, length_maxSockFilename]
  have : (str "unix").length = 4 := by decide
  omega

/-- The directory is five bytes longer than its parent, unless that is the root. -/
theorem length_eq (h : SockDir abspath dir) :
    dir.length = abspath.length + 5 ∨ abspath.length = 1 ∧ dir.length = 5 := by
  obtain ⟨cs, hcs, rfl, rfl⟩ := h.parent
  by_cases hnil : cs = []
  · subst hnil
    exact Or.inr (by decide)
  · refine Or.inl ?_
    rw [Path.absolute_append_singleton hnil, List.length_append]
    rfl

end SockDir

/-- What an accepted manager is: its directory is in the parent, and passes the check. -/
theorem newSockManager_spec {os : Os} {path abspath : Str} {sm : SockManager}
    (habs : Path.abs os.getwd path = .ok abspath) (h : newSockManager os path = .ok sm) :
    SockDir abspath sm.sockDirPath ∧ sm.sockDirPath.length ≤ 99 ∧ sm.counter = 0 := by
  unfold newSockManager at h
  simp only [habs] at h
  split at h
  · cases h
  · split at h
    · cases h
    · rename_i hlen
      have hdir := sockDir_join habs
      have hle : (Path.join [abspath, udsDir]).length ≤ 99 := by
        rw [hdir.length_maxSockPath, sizeofSockaddrAny] at hlen
        omega
      split at h
      · cases h
      · split at h <;> cases h
        exact ⟨hdir, hle, rfl⟩

/-- An accepted manager has its directory in some clean parent and starts at zero. -/
theorem sockDir_of_newSockManager {os : Os} {path : Str} {sm : SockManager}
    (h : newSockManager os path = .ok sm) :
    ∃ abspath, SockDir abspath sm.sockDirPath ∧ sm.counter = 0 := by
  cases habs : Path.abs os.getwd path with
  | error e => simp [newSockManager, habs] at h
  | ok abspath =>
    obtain ⟨hdir, -, hzero⟩ := newSockManager_spec habs h
    exact ⟨abspath, hdir, hzero⟩

/-- What a returned path is: a file name for the counter, in the directory. -/
theorem newSockPath_spec {sm : SockManager} {stat : Str → StatResult} {p : Str}
    (h : (sm.newSockPath stat).1 = .ok p) :
    sm.counter ≠ maxUint32 ∧ p = sm.sockPath (sockFilename sm.counter.toNat) := by
  unfold SockManager.newSockPath SockManager.takeFilename at h
  split at h
  · cases h
  · rename_i filename sm' htake
    split at htake
    · cases htake
    · rename_i hcounter
      obtain ⟨hname, rfl⟩ := Prod.mk.inj htake
      obtain rfl := Except.ok.inj hname
      refine ⟨hcounter, ?_⟩
      simp only at h
      generalize stat _ = answer at h
      cases answer with
      | notExist e => exact (Except.ok.inj h).symm
      | present => cases h
      | failed e => cases h

/-- A path is servable when it is at most 106 bytes long: the slash of `/unix/` counts. -/
theorem servable_iff_length (p : Str) : Servable p ↔ p.length ≤ 106 := by
  have hname : (unixSocketName (str "/unix/" ++ p)).length = p.length + 1 := by
    rw [unixSocketName, List.length_drop, List.length_append]
    have : (str "/unix/").length = 6 := by decide
    have : (str "/unix").length = 5 := by decide
    omega
  simp only [Servable, Node.ServeCall.addresses, List.mem_singleton, forall_eq, newUDSShell,
    newShell, hname, maxSocketName]
  omega

/-- A path in the directory of a manager is eight bytes longer than the directory. -/
theorem length_of_newSockPath {abspath : Str} {sm : SockManager}
    (hdir : SockDir abspath sm.sockDirPath) {stat : Str → StatResult} {p : Str}
    (h : (sm.newSockPath stat).1 = .ok p) :
    p.length = sm.sockDirPath.length + 8 := by
  obtain ⟨-, rfl⟩ := newSockPath_spec h
  have hlen := length_sockFilename sm.counter.isLt
  rw [length_maxSockFilename] at hlen
  have hplain := plain_of_length (by omega) (slash_not_mem_sockFilename sm.counter.toNat)
  rw [SockManager.sockPath, hdir.join_eq hplain, List.length_append, List.length_cons, hlen]

/-- The paths that an accepted manager hands out can be served exactly when the absolute
path of the parent directory has at most 93 bytes. -/
theorem newSockPath_servable_iff {os : Os} {path abspath : Str} {sm : SockManager}
    (habs : Path.abs os.getwd path = .ok abspath) (hnew : newSockManager os path = .ok sm)
    (counter : BitVec 32) (stat : Str → StatResult) {p : Str}
    (hp : (SockManager.newSockPath stat { sm with counter := counter }).1 = .ok p) :
    Servable p ↔ abspath.length ≤ 93 := by
  obtain ⟨hdir, hle, -⟩ := newSockManager_spec habs hnew
  have hdir' : SockDir abspath ({ sm with counter := counter } : SockManager).sockDirPath := hdir
  have hlen := length_of_newSockPath hdir' hp
  have hparent := hdir.length_eq
  rw [servable_iff_length]
  simp only at hlen
  omega

/-- A system with the root as working directory and one other directory. -/
def osWithDir (dir : Str) : Os where
  getwd := .ok (str "/")
  getwd_isAbs := by
    intro wd h
    obtain rfl := Except.ok.inj h
    decide
  stat p := if p = dir then .present else .notExist (.other (str "no such file or directory"))
  removeAll _ := none
  mkdirAll _ _ := none

/-- The condition on the 36th path in the `sock` folder of `/data`. -/
theorem newSockPath_servable_iff_data :
    Servable (str "/data/sock/000000z") ↔ (str "/data").length ≤ 93 := by
  have habs : Path.abs (osWithDir (str "/data")).getwd (str "/data/") = .ok (str "/data") := by
    decide
  have hnew : newSockManager (osWithDir (str "/data")) (str "/data/") =
      .ok ⟨str "/data/sock", 0⟩ := by
    decide
  exact newSockPath_servable_iff habs hnew 35 (osWithDir (str "/data")).stat (by decide)

/-- The longest directory that `NewSockManager` accepts has 94 bytes. -/
def longestDir : Str := Path.slash :: List.replicate 93 0x61

/-- In the longest directory the first path is handed out, and its socket name has 108
bytes. -/
theorem not_servable_longestDir :
    newSockManager (osWithDir longestDir) longestDir = .ok ⟨longestDir ++ str "/sock", 0⟩ ∧
      (SockManager.newSockPath (osWithDir longestDir).stat ⟨longestDir ++ str "/sock", 0⟩).1 =
        .ok (longestDir ++ str "/sock/0000000") ∧
      ¬Servable (longestDir ++ str "/sock/0000000") := by
  refine ⟨by decide +kernel, by decide +kernel, ?_⟩
  rw [servable_iff_length]
  decide

end IpfsMobile.Core
