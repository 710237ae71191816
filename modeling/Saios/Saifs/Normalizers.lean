/-
  THE THREE PATH NORMALIZERS of the kernel: SAIFS's `canonicalize_path`, the storage driver's `normalize_path`, and
  `normalized_path` of the tmpfs.

  Each is compared with one normal form, `absolute (comps path)`: the components of the path with the dots resolved,
  joined again.  The tmpfs starts from its working directory when the path is relative, so it agrees with the other
  two for absolute paths (`normalizedPath_absolute`) and in the root directory (`normalizers_agree`).
-/
import Saios.Saifs.Resolver
import Saios.Vfs.Paths

namespace Saios

open Path
open Storage (comps comps_isName comps_absolute normalizePath_eq normalizePath_absolute)

namespace Vfs

open TmpFs

variable {fs : TmpFs} {path : Str}

theorem normalizedPath_from {start : List Str}
    (hstart : (if path.head? = some '/' then some [] else fs.cwdPath.map components) = some start) :
    fs.normalizedPath path = some (absolute (resolveDots start (components path))) := by
  unfold normalizedPath
  simp only [Option.bind_eq_bind]
  by_cases hslash : path.head? = some '/'
  · rw [if_pos hslash] at hstart ⊢
    rw [hstart, Option.bind_some, normalized_string]
    rfl
  · rw [if_neg hslash] at hstart ⊢
    rw [hstart, Option.bind_some, normalized_string]
    rfl

theorem normalizedPath_absolute (h : path.head? = some '/') : fs.normalizedPath path = some (absolute (comps path)) :=
  normalizedPath_from (if_pos h)

theorem normalizedPath_root (hcwd : fs.cwdPath = some ['/']) : fs.normalizedPath path = some (absolute (comps path)) := by
  refine normalizedPath_from ?_
  rw [hcwd]
  exact ite_self _

end Vfs

namespace Saifs

open Vfs

/-- **The three normalizers agree, on a normal form that they keep.** -/
theorem normalizers_agree (fs : TmpFs) (hcwd : fs.cwdPath = some ['/']) (path : Str) (hnul : nul ∉ path) :
    ∃ p, canonicalizePath path = .ok p ∧ Storage.normalizePath path = p ∧ fs.normalizedPath path = some p ∧
      (p = ['/'] ∨ ∃ cs, cs ≠ [] ∧ (∀ c ∈ cs, IsName c) ∧ p = '/' :: ['/'].intercalate cs) ∧
      canonicalizePath p = .ok p ∧ Storage.normalizePath p = p ∧ fs.normalizedPath p = some p := by
  have hagain : comps (absolute (comps path)) = comps path := comps_absolute (comps_isName path)
  refine ⟨absolute _, canonicalizePath_ok hnul, normalizePath_eq path, normalizedPath_root hcwd, ?_,
    canonical_absolute hnul fun _ he => he, normalizePath_absolute (comps_isName path), ?_⟩
  · by_cases hnil : comps path = []
    · rw [hnil]
      exact .inl rfl
    · exact .inr ⟨comps path, hnil, comps_isName path, rfl⟩
  · rw [normalizedPath_root hcwd, hagain]

theorem normalizers_agree_dots : ∃ p, canonicalizePath "a/./b//..".toList = .ok p ∧
    Storage.normalizePath "a/./b//..".toList = p ∧ TmpFs.new.normalizedPath "a/./b//..".toList = some p := by
  obtain ⟨p, hsaifs, hstorage, hvfs, -⟩ := normalizers_agree TmpFs.new rfl "a/./b//..".toList (by decide)
  exact ⟨p, hsaifs, hstorage, hvfs⟩

end Saifs

end Saios
