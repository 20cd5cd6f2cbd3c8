import Mathlib.Data.List.DropRight
import Mathlib.Data.String.Basic

/-!
# Repository paths

* `validRelPath` : what a manifest may name; `trimSlashes` : `trim_end_matches('/')`;
* `under` : a path is `spec` or lies below it; `covers` : the same for an input as it is written;
* `globMatch` : the patterns of `.aien/unmapped-ok`;
* `stemOf` : the file name without its last extension; `impliedBy` : whether a manifest implies a path as its input.
-/

namespace SovereignCore.AienTest

def validRelPath (s : String) : Bool :=
  s ≠ "" ∧ s.toList.head? ≠ some '/' ∧ '\x00' ∉ s.toList ∧ ['.', '.'] ∉ s.toList.splitOn '/'

def trimSlashes (s : String) : String := String.ofList (s.toList.rdropWhile (· = '/'))

/-- `path` is `spec`, or starts with `spec` and a slash. -/
def under (spec path : String) : Bool := path = spec ∨ (spec.toList ++ ['/']).isPrefixOf path.toList

/-- `input` is `path` or a directory above it. -/
def covers (input path : String) : Bool := trimSlashes input = "" ∨ under (trimSlashes input) path

/-- `*` matches any run of characters. -/
def globWalk : List Char → List Char → Bool
  | [], path => path = []
  | '*' :: pattern, path => path.tails.any (globWalk pattern)
  | c :: pattern, path => path.head? = some c ∧ globWalk pattern path.tail

/-- A pattern that ends in `/` matches everything under that directory. -/
def globMatch (pattern path : String) : Bool :=
  if pattern.toList.getLast? = some '/' then covers (String.ofList pattern.toList.dropLast) path
  else globWalk pattern.toList path.toList

/-- The file name, without its last extension unless it starts with that dot. -/
def stemOf (path : List Char) : List Char :=
  let name := path.rtakeWhile (· ≠ '/')
  let dotted := name.rdropWhile (· ≠ '.')
  if 1 < dotted.length then dotted.dropLast else name

/-- The directories and file stems that a manifest at `rel` implies as inputs. -/
def impliedPlaces (rel : String) : List (List Char × List Char) :=
  let dir := (rel.toList.rdropWhile (· ≠ '/')).dropLast
  if "tests".toList.isPrefixOf dir then
    let sub := (dir.drop 5).dropWhile (· = '/')
    let join (base : List Char) := if sub = [] then base else base ++ '/' :: sub
    [(join "src".toList, stemOf rel.toList), (join "tests".toList, stemOf rel.toList ++ "_test".toList)]
  else []

/-- `path` is a file right in the directory, with the stem. -/
def atPlace (place : List Char × List Char) (path : String) : Bool :=
  let start := place.1 ++ ['/']
  start.isPrefixOf path.toList ∧ '/' ∉ path.toList.drop start.length ∧ stemOf (path.toList.drop start.length) = place.2

def impliedBy (rel path : String) : Bool := (impliedPlaces rel).any fun place => atPlace place path

theorem under_prefix {spec path : String} (h : under spec path = true) : spec.toList <+: path.toList := by
  unfold under at h
  rw [decide_eq_true_eq] at h
  rcases h with rfl | h
  · exact List.prefix_refl _
  · exact (List.prefix_append spec.toList ['/']).trans (List.isPrefixOf_iff_prefix.1 h)

theorem trimSlashes_ne_nil {s : String} (h : validRelPath s = true) : trimSlashes s ≠ "" := by
  unfold validRelPath at h
  rw [decide_eq_true_eq] at h
  obtain ⟨hne, hhead, -, -⟩ := h
  intro hnil
  have hall : ∀ c ∈ s.toList, decide (c = '/') = true := List.rdropWhile_eq_nil_iff.1 (String.ofList_injective hnil)
  cases hs : s.toList with
  | nil => exact hne (String.toList_eq_nil_iff.1 hs)
  | cons c cs =>
    have hc : c = '/' := by simpa using hall c (hs ▸ List.mem_cons_self)
    rw [hs, hc] at hhead
    exact hhead rfl

theorem covers_iff {input path : String} (h : validRelPath input = true) :
    covers input path = true ↔ under (trimSlashes input) path = true := by
  unfold covers
  rw [decide_eq_true_eq]
  exact or_iff_right (trimSlashes_ne_nil h)

theorem trimSlashes_trimSlashes (s : String) : trimSlashes (trimSlashes s) = trimSlashes s := by
  unfold trimSlashes
  rw [String.toList_ofList, List.rdropWhile_idempotent]

theorem covers_trimSlashes (input path : String) : covers (trimSlashes input) path = covers input path := by
  unfold covers
  rw [trimSlashes_trimSlashes]

theorem covers_self (path : String) : covers path path = true := by
  have hsplit : (trimSlashes path).toList ++ path.toList.rtakeWhile (· = '/') = path.toList := by
    unfold trimSlashes
    rw [String.toList_ofList]
    exact List.rdropWhile_append_rtakeWhile
  unfold covers
  rw [decide_eq_true_eq]
  right
  unfold under
  rw [decide_eq_true_eq]
  cases hslashes : path.toList.rtakeWhile (· = '/') with
  | nil =>
    left
    rw [hslashes, List.append_nil] at hsplit
    exact String.ext hsplit.symm
  | cons c cs =>
    right
    have hc : c = '/' := by simpa using List.mem_rtakeWhile_imp (hslashes ▸ List.mem_cons_self : c ∈ path.toList.rtakeWhile (· = '/'))
    rw [hslashes, hc] at hsplit
    refine List.isPrefixOf_iff_prefix.2 ⟨cs, ?_⟩
    rw [List.append_assoc, List.singleton_append, hsplit]

end SovereignCore.AienTest
