import RSafeFS.Fuse
import Mathlib.Data.List.DropRight

/-!
# Path names

The caches use `std::filesystem::path` for one purpose, the parent of a path. This
file gives that function on the characters of a path, and the notions of entry and
subtree in which statements about a file tree are phrased.
-/

namespace RSafeFS

/-- `fs::path(p).parent_path()`: a path without a file name is its own parent, any
other path loses its last name and the separators before it. -/
def parentPath (p : PathName) : PathName :=
  if p.all (· == '/') then p
  else
    let dir := p.rdropWhile (· != '/')
    let stripped := dir.rdropWhile (· == '/')
    if stripped = [] ∧ dir ≠ [] then ['/'] else stripped

/-- `fs::path(p).has_parent_path()`. -/
def hasParentPath (p : PathName) : Bool := !(parentPath p).isEmpty

/-- `q` names an entry of the directory `p`: the root followed by a name, or a path
that does not end in a separator followed by one and a name. -/
def DirectChild (p q : PathName) : Prop :=
  ∃ name : PathName, name ≠ [] ∧ '/' ∉ name ∧
    ((p = ['/'] ∧ q = '/' :: name) ∨
      (∃ init c, p = init ++ [c] ∧ c ≠ '/' ∧ q = p ++ '/' :: name))

/-- `q` lies strictly below the directory `d`. -/
def Below (d q : PathName) : Prop := ∃ rest : PathName, rest ≠ [] ∧ q = d ++ '/' :: rest

private theorem rdropWhile_name (dir : PathName) {name : PathName} (hname : '/' ∉ name) :
    (dir ++ '/' :: name).rdropWhile (· != '/') = dir ++ ['/'] := by
  induction name using List.reverseRecOn with
  | nil => rw [List.rdropWhile_concat_neg]; simp
  | append_singleton name c ih =>
    have hc : c ≠ '/' := fun h => hname (by simp [h])
    have hrest : '/' ∉ name := fun h => hname (by simp [h])
    rw [← List.cons_append, ← List.append_assoc,
        List.rdropWhile_concat_pos _ _ _ (by simpa using hc)]
    exact ih hrest

/-- The code's parent of an entry is the directory that holds it. -/
theorem DirectChild.parentPath_eq {p q : PathName} (h : DirectChild p q) : parentPath q = p := by
  obtain ⟨name, hne, hname, ⟨rfl, rfl⟩ | ⟨init, c, rfl, hc, rfl⟩⟩ := h
  · have hall : ('/' :: name).all (· == '/') = false := by
      obtain ⟨c, rest, rfl⟩ := List.exists_cons_of_ne_nil hne
      have hc : c ≠ '/' := fun h => hname (by simp [h])
      simp [hc]
    have hdir := rdropWhile_name [] hname
    rw [List.nil_append, List.nil_append] at hdir
    simp [parentPath, hall, hdir, List.rdropWhile_singleton]
  · have hall : (init ++ [c] ++ '/' :: name).all (· == '/') = false := by
      simp [hc]
    have hstrip : (init ++ [c] ++ ['/']).rdropWhile (· == '/') = init ++ [c] := by
      rw [List.rdropWhile_concat_pos _ _ _ (by simp),
      List.rdropWhile_concat_neg _ _ _ (by simpa using hc)]
    simp only [parentPath, hall, rdropWhile_name _ hname, hstrip]
    simp

/-- The directory of an entry is a parent that the code recognises as one. -/
theorem DirectChild.hasParentPath {p q : PathName} (h : DirectChild p q) :
    hasParentPath q = true := by
  have hne : p ≠ [] := by
    obtain ⟨name, _, _, ⟨rfl, _⟩ | ⟨init, c, rfl, _, _⟩⟩ := h <;> simp
  simp [RSafeFS.hasParentPath, h.parentPath_eq, hne]

/-- The parent of a path is one of its prefixes. -/
theorem parentPath_isPrefix (p : PathName) : parentPath p <+: p := by
  unfold parentPath
  split
  · exact List.prefix_refl p
  · have hdir : p.rdropWhile (· != '/') <+: p := List.rdropWhile_prefix _ _
    have hstrip : (p.rdropWhile (· != '/')).rdropWhile (· == '/') <+: p.rdropWhile (· != '/') :=
      List.rdropWhile_prefix _ _
    dsimp only
    split
    · next hroot =>
      -- Only separators remain, so the first character of the path is one.
      obtain ⟨hnil, hne⟩ := hroot
      have hall := List.rdropWhile_eq_nil_iff.mp hnil
      obtain ⟨c, rest, hcons⟩ := List.exists_cons_of_ne_nil hne
      have hc : c = '/' := by simpa using hall c (by rw [hcons]; simp)
      obtain ⟨suffix, hsuffix⟩ := hdir
      exact ⟨rest ++ suffix, by rw [← hsuffix, hcons, hc]; rfl⟩
    · exact hstrip.trans hdir

/-- A path whose parent lies below a directory lies below it too. -/
theorem Below.of_parentPath {d p : PathName} (h : Below d (parentPath p)) : Below d p := by
  obtain ⟨rest, hrest, hparent⟩ := h
  obtain ⟨suffix, hsuffix⟩ := parentPath_isPrefix p
  refine ⟨rest ++ suffix, by simp [hrest], ?_⟩
  rw [← hsuffix, hparent, List.append_assoc, List.cons_append]

/-- A path below a directory is longer than the directory's. -/
theorem Below.length_lt {d q : PathName} (h : Below d q) : d.length < q.length := by
  obtain ⟨rest, hrest, rfl⟩ := h
  simp only [List.length_append, List.length_cons]
  omega

end RSafeFS
