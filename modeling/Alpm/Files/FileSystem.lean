import Alpm.CString

/-!
# File systems

A file system below `handle->root`: what stands at every path relative to the root, without a
trailing slash.  Files hold their content, and there are symbolic links and directories.  No path
leads through a link.

The calls that the library makes are those on the map: `lstat` reads it, `unlink` and `rmdir` take a
path out, and `rename` moves what is at a path, for a directory with everything below it.  They are
total functions that return whether the call succeeds, and what a failing call leaves is the file
system as it was.

What `open` and `stat` find behind a link, and the functions of other libraries (MD5, regular
expressions, `fnmatch`, the extraction of an archive entry), are parameters, collected in `System`.
A theorem for every `System` holds for all that they can answer; where a result needs one of them to
behave, it has a hypothesis that says so.

The lemmas are frame conditions, what an operation leaves alone.  For `rename` of a directory this
takes the relation `Under`, since it moves many paths at once: outside of the trees at the two paths
nothing changes (`rename_node_of_not_under`).
-/

namespace Alpm

/-- What can stand at a path. -/
inductive Node where
  | file (content : CString)
  | link (target : CString)
  | dir
  deriving DecidableEq, Repr

/-- A file system with finitely many paths in use. -/
structure FileSystem where
  node : CString → Option Node
  paths : List CString
  mem_paths : ∀ path, node path ≠ none → path ∈ paths

/-- The file system with nothing in it. -/
def FileSystem.empty : FileSystem := ⟨fun _ => none, [], by simp⟩

/-- The path ends in a slash, as those of directories do in file lists. -/
def hasSlash (path : CString) : Bool := path.getLast? = some '/'

/-- The path without its trailing slash. -/
def stripSlash (path : CString) : CString := if hasSlash path then path.dropLast else path

/-- `path` is `dir` or lies below it. -/
def Under (dir path : CString) : Prop := path = dir ∨ dir ++ ['/'] <+: path

instance (dir path : CString) : Decidable (Under dir path) := by
  unfold Under
  infer_instance

namespace FileSystem

/-- `llstat`: `lstat` of the path without its trailing slash. -/
def llstat (fs : FileSystem) (path : CString) : Option Node := fs.node (stripSlash path)

/-- Put a node at a path, or remove what is there. -/
def set (fs : FileSystem) (path : CString) (node : Option Node) : FileSystem where
  node := Function.update fs.node path node
  paths := path :: fs.paths
  mem_paths q hq := by
    by_cases h : q = path
    · exact h ▸ List.mem_cons_self
    · rw [Function.update_of_ne h] at hq
      exact List.mem_cons_of_mem _ (fs.mem_paths q hq)

/-- `unlink`, of a path that is not a directory, or `rmdir` of an empty directory. -/
def remove (fs : FileSystem) (path : CString) : FileSystem := fs.set path none

/-- The name of a path in the directory `dir`. -/
def nameIn (dir path : CString) : Option CString :=
  let front := if dir = [] then [] else dir ++ ['/']
  let name := path.drop front.length
  if front <+: path ∧ name ≠ [] ∧ '/' ∉ name then some name else none

/-- The names that `readdir` gives for a directory, `.` and `..` left out. -/
def readdir (fs : FileSystem) (dir : CString) : List CString :=
  (fs.paths.filter fun path => (fs.node path).isSome).filterMap (nameIn dir)

/-- A directory with everything below it moves from `src` to `dst`. -/
def moveTree (fs : FileSystem) (src dst : CString) : FileSystem where
  node path :=
    if Under dst path then fs.node (src ++ path.drop dst.length)
    else if Under src path then none
    else fs.node path
  paths := fs.paths ++ fs.paths.map fun path => dst ++ path.drop src.length
  mem_paths path hpath := by
    rw [List.mem_append]
    split_ifs at hpath with hdst hsrc
    · refine Or.inr (List.mem_map.mpr ⟨_, fs.mem_paths _ hpath, ?_⟩)
      rw [List.drop_left]
      rcases hdst with rfl | ⟨rest, rfl⟩
      · simp
      · simp
    · exact absurd rfl hpath
    · exact Or.inl (fs.mem_paths _ hpath)

/-- `rename` of a directory: whether it succeeds, and the file system afterwards. -/
def renameDir (fs : FileSystem) (src dst : CString) : Bool × FileSystem :=
  if Under src dst then (src = dst, fs)
  else if fs.node dst = none ∨ fs.node dst = some .dir ∧ fs.readdir dst = [] then
    (true, fs.moveTree src dst)
  else (false, fs)

/-- `rename`: whether it succeeds, and the file system afterwards.  What is at the old path replaces
what is at the new one, and a directory takes along everything below it. -/
def rename (fs : FileSystem) (src dst : CString) : Bool × FileSystem :=
  match fs.node src with
  | none => (false, fs)
  | some .dir => fs.renameDir src dst
  | some node =>
    if src = dst then (true, fs)
    else if fs.node dst = some .dir then (false, fs)
    else (true, (fs.set dst (some node)).remove src)

end FileSystem

/-- The functions of other libraries, and what the system does with links, mount points
and permissions. -/
structure System where
  /-- the MD5 sum of a content -/
  md5 : CString → CString
  /-- the MD5 sum of the file that a link leads to -/
  linkMd5 : FileSystem → CString → Option CString
  /-- `stat` of a link succeeds -/
  linkStat : (CString → Option Node) → CString → Bool
  /-- `fnmatch(pattern, string, 0) == 0` -/
  fnmatch : CString → CString → Bool
  /-- `regcomp` with `REG_EXTENDED | REG_NEWLINE`, and `regexec` with what it gives -/
  regcomp : CString → Option (CString → Bool)
  /-- what stands behind the name and its terminating NUL in an entry of `readdir` -/
  behindName : CString → CString
  /-- `archive_read_extract2` of an entry to a path: whether it succeeds, and the file system
  afterwards -/
  extract : FileSystem → CString → Node → Bool × FileSystem
  /-- `dir_is_mountpoint` -/
  isMountpoint : CString → Bool
  /-- `can_remove_file` -/
  canRemove : CString → Bool

/-- `alpm_compute_md5sum`. -/
def computeMd5sum (sys : System) (fs : FileSystem) (path : CString) : Option CString :=
  match fs.node path with
  | some (.file content) => some (sys.md5 content)
  | some (.link _) => sys.linkMd5 fs path
  | _ => none

/-- `stat(path) == 0`. -/
def statOk (sys : System) (fs : FileSystem) (path : CString) : Bool :=
  match fs.node path with
  | some (.link _) => sys.linkStat fs.node path
  | some _ => true
  | none => false

/-! ## What an operation leaves alone -/

section Paths

variable {dir path : CString}

theorem stripSlash_of_not (h : ¬ hasSlash path) : stripSlash path = path := if_neg h

theorem Under.refl (path : CString) : Under path path := Or.inl rfl

/-- Below a path without slashes there is nothing that ends before the path does. -/
theorem Under.length_le (h : Under dir path) : dir.length ≤ path.length := by
  rcases h with rfl | h
  · exact le_rfl
  · have := h.length_le
    rw [List.length_append] at this
    omega

end Paths

namespace FileSystem

variable {fs : FileSystem} {path q src dst : CString}

@[simp] theorem set_node_self {node : Option Node} : (fs.set path node).node path = node :=
  Function.update_self ..

theorem set_node_of_ne {node : Option Node} (h : q ≠ path) :
    (fs.set path node).node q = fs.node q :=
  Function.update_of_ne h _ _

@[simp] theorem remove_node_self : (fs.remove path).node path = none := set_node_self

theorem remove_node_of_ne (h : q ≠ path) : (fs.remove path).node q = fs.node q :=
  set_node_of_ne h

theorem moveTree_node_of_not_under (hsrc : ¬ Under src q) (hdst : ¬ Under dst q) :
    (fs.moveTree src dst).node q = fs.node q := by
  show (if _ then _ else _) = _
  rw [if_neg hdst, if_neg hsrc]

/-- **`rename`** changes nothing outside of the two paths: what is neither at one of them nor below
it is as before, whether the call succeeds or not. -/
theorem rename_node_of_not_under (hsrc : ¬ Under src q) (hdst : ¬ Under dst q) :
    (fs.rename src dst).2.node q = fs.node q := by
  have hqsrc : q ≠ src := fun h => hsrc (h ▸ Under.refl _)
  have hqdst : q ≠ dst := fun h => hdst (h ▸ Under.refl _)
  unfold rename
  split
  · rfl
  · unfold renameDir
    split_ifs
    · rfl
    · exact moveTree_node_of_not_under hsrc hdst
    · rfl
  · split_ifs
    · rfl
    · rfl
    · rw [remove_node_of_ne hqsrc, set_node_of_ne hqdst]

/-- **`rename`** of what is not a directory, to where there is none. -/
theorem rename_node_of_node {node : Node} (hsrc : fs.node src = some node) (hdir : node ≠ .dir)
    (hdst : fs.node dst ≠ some .dir) (hne : src ≠ dst) :
    fs.rename src dst = (true, (fs.set dst (some node)).remove src) := by
  unfold rename
  rw [hsrc]
  cases node with
  | dir => exact absurd rfl hdir
  | file content => exact (if_neg hne).trans (if_neg hdst)
  | link target => exact (if_neg hne).trans (if_neg hdst)

end FileSystem

end Alpm
