import SovereignCore.Lib.Framed
import SovereignCore.Lib.Hex
import SovereignCore.Lib.Lossy
import SovereignCore.Lib.Result
import Mathlib.Data.Set.Function

/-!
# The digest of a component's sources

`source_digest` hashes the text of each relative path and the bytes of each file, in the order of the texts. The text of
a path is not its bytes: what is no UTF-8 is replaced, and a backslash becomes a slash.

* `Name`, `Path`, `Listing`, `SourceTree` : a directory as `read_dir` gives it, names any bytes that Unix allows;
* `collect`, `sourceDigest` : the walk and the hash;
* `collect_ok` : the walk finds all regular files but the skipped ones;
* `preimage_files` : what the hashed bytes tell of the files;
* `collision_free_iff` : among trees over some paths, digests tell the files exactly when the texts tell the paths.
-/

namespace SovereignCore.Closure

open Text Hex

def slash : UInt8 := 47

/-- A file name: not empty, no slash, no zero byte, and not a dot entry. -/
structure Name where
  bytes : List UInt8
  nonempty : bytes ≠ []
  noSlash : slash ∉ bytes
  noNul : 0 ∉ bytes
  noDot : bytes ≠ [46] ∧ bytes ≠ [46, 46]
  deriving DecidableEq

/-- A path relative to the component's directory. -/
abbrev Path := List Name

def Name.text (n : Name) : String := lossy n.bytes

def pathBytes (p : Path) : List UInt8 := [slash].intercalate (p.map Name.bytes)

/-- `to_string_lossy().replace('\\', "/")`. -/
def relText (p : Path) : String := (lossy (pathBytes p)).map fun c => if c = '\\' then '/' else c

/-- What `read_dir` yields, entry by entry: a regular file and what reading it gives, a directory, or something else;
`failed` where the listing itself breaks off. -/
inductive Listing
  | done
  | failed (error : String)
  | file (name : Name) (read : Except String (List UInt8)) (rest : Listing)
  | dir (name : Name) (inside rest : Listing)
  | other (name : Name) (rest : Listing)

/-- A collected file. -/
structure SourceFile where
  path : Path
  read : Except String (List UInt8)

namespace Listing

def names : Listing → List Name
  | done | failed _ => []
  | file name _ rest | dir name _ rest | other name rest => name :: rest.names

def Distinct : Listing → Prop
  | done | failed _ => True
  | file name _ rest | other name rest => name ∉ rest.names ∧ rest.Distinct
  | dir name inside rest => name ∉ rest.names ∧ inside.Distinct ∧ rest.Distinct

def files (dir : Path) : Listing → List SourceFile
  | done | failed _ => []
  | file name read rest => ⟨dir ++ [name], read⟩ :: rest.files dir
  | Listing.dir name inside rest => inside.files (dir ++ [name]) ++ rest.files dir
  | other _ rest => rest.files dir

end Listing

/-- A component's directory. Lengths are `usize`. -/
structure SourceTree where
  listing : Listing
  distinct : listing.Distinct
  sized : ∀ f ∈ listing.files [], (utf8 (relText f.path)).length < 2 ^ 64 ∧
    ∀ bytes, f.read = .ok bytes → bytes.length < 2 ^ 64

/-! ## The walk and the hash -/

def digestDomain : List UInt8 := utf8 "AIEN_CLOSURE_SOURCE_V1"

def skipDirs : List String := ["target", ".git"]

def skipFiles : List String := ["closure.toml", "closure.lock"]

def display (base : String) (p : Path) : String := base ++ "/" ++ lossy (pathBytes p)

/-- `base` is the directory of the component, and `dir` where the walk stands below it. -/
def collect (base : String) (dir : Path) : Listing → List SourceFile → Except String (List SourceFile)
  | .done, out => .ok out
  | .failed error, _ => .error error
  | .file name read rest, out =>
    if dir = [] ∧ name.text ∈ skipFiles then collect base dir rest out
    else collect base dir rest (out ++ [⟨dir ++ [name], read⟩])
  | .dir name inside rest, out =>
    if name.text ∈ skipDirs then collect base dir rest out
    else do
      let out ← collect base (dir ++ [name]) inside out
      collect base dir rest out
  | .other name _, _ => .error s!"non-regular file in component source: {display base (dir ++ [name])}"

def entryBytes (entry : String × List UInt8) : List UInt8 :=
  (Wire.beBytes 8 (utf8 entry.1).length ++ utf8 entry.1) ++ (Wire.beBytes 8 entry.2.length ++ entry.2)

def keyed (files : List SourceFile) : List (String × SourceFile) :=
  (files.map fun f => (relText f.path, f)).mergeSort fun a b => decide (utf8 a.1 ≤ utf8 b.1)

def readAll (base : String) : List (String × SourceFile) → Except String (List (String × List UInt8))
  | [] => .ok []
  | (rel, f) :: rest => do
    let bytes ← f.read.mapError fun e => s!"cannot read {display base f.path}: {e}"
    let others ← readAll base rest
    return (rel, bytes) :: others

def preimage (base : String) (listing : Listing) : Except String (List UInt8) := do
  let files ← collect base [] listing []
  let entries ← readAll base (keyed files)
  return digestDomain ++ entries.flatMap entryBytes

def sourceDigest (blake : List UInt8 → Vector UInt8 32) (base : String) (listing : Listing) : Except String String := do
  let bytes ← preimage base listing
  return hexText (blake bytes).toList

/-! ## What the walk finds -/

/-- The files that the walk passes over: below `target` or `.git`, and two names at the top. -/
def Skipped (p : Path) : Prop :=
  (∃ name ∈ p.dropLast, name.text ∈ skipDirs) ∨ (p.length = 1 ∧ ∃ name ∈ p, name.text ∈ skipFiles)

instance (p : Path) : Decidable (Skipped p) := inferInstanceAs (Decidable (_ ∨ _))

def kept (files : List SourceFile) : List SourceFile := files.filter fun f => ¬ Skipped f.path

theorem kept_append (a b : List SourceFile) : kept (a ++ b) = kept a ++ kept b := List.filter_append ..

theorem path_of_mem_files {l : Listing} {dir : Path} {f : SourceFile} (h : f ∈ l.files dir) :
    ∃ rest, rest ≠ [] ∧ f.path = dir ++ rest := by
  induction l generalizing dir with
  | done => exact absurd h List.not_mem_nil
  | failed error => exact absurd h List.not_mem_nil
  | file name read rest ih =>
    obtain rfl | h := List.mem_cons.1 h
    · exact ⟨[name], List.cons_ne_nil _ _, rfl⟩
    · exact ih h
  | dir name inside rest ihIn ih =>
    obtain h | h := List.mem_append.1 h
    · obtain ⟨below, -, hpath⟩ := ihIn h
      exact ⟨name :: below, List.cons_ne_nil _ _, by rw [hpath, List.append_assoc, List.singleton_append]⟩
    · exact ih h
  | other name rest ih => exact ih h

theorem kept_below {l : Listing} {dir : Path} {name : Name} (hskip : name.text ∈ skipDirs) :
    kept (l.files (dir ++ [name])) = [] := by
  unfold kept
  rw [List.filter_eq_nil_iff]
  intro f hf
  obtain ⟨rest, hne, hpath⟩ := path_of_mem_files hf
  have hskipped : Skipped f.path := by
    refine Or.inl ⟨name, ?_, hskip⟩
    rw [hpath, List.dropLast_append_of_ne_nil hne]
    simp
  simpa using hskipped

theorem skipped_file {dir : Path} {name : Name} (hclean : ∀ n ∈ dir, n.text ∉ skipDirs) :
    Skipped (dir ++ [name]) ↔ dir = [] ∧ name.text ∈ skipFiles := by
  unfold Skipped
  rw [List.dropLast_concat]
  constructor
  · rintro (⟨n, hn, hskip⟩ | ⟨hlen, n, hn, hskip⟩)
    · exact absurd hskip (hclean n hn)
    · have hdir : dir = [] := by simpa using hlen
      subst hdir
      exact ⟨rfl, List.mem_singleton.1 hn ▸ hskip⟩
  · rintro ⟨rfl, hskip⟩
    exact Or.inr ⟨rfl, name, List.mem_singleton_self name, hskip⟩

/-- A walk that ends has found all regular files but the skipped ones. -/
theorem collect_ok {base : String} {l : Listing} : ∀ {dir : Path} {out found : List SourceFile},
    (∀ n ∈ dir, n.text ∉ skipDirs) → collect base dir l out = .ok found → found = out ++ kept (l.files dir) := by
  induction l with
  | done =>
    intro dir out found _ h
    obtain rfl := Except.ok.inj h
    exact (List.append_nil _).symm
  | failed error =>
    intro dir out found _ h
    cases h
  | file name read rest ih =>
    intro dir out found hclean h
    unfold collect at h
    unfold Listing.files kept
    split_ifs at h with hskip
    · rw [List.filter_cons_of_neg (by simpa using (skipped_file hclean).2 hskip)]
      exact ih hclean h
    · rw [List.filter_cons_of_pos (by simpa using fun hs => hskip ((skipped_file hclean).1 hs))]
      rw [ih hclean h, List.append_assoc]
      rfl
  | dir name inside rest ihIn ih =>
    intro dir out found hclean h
    unfold collect at h
    unfold Listing.files
    rw [kept_append]
    split_ifs at h with hskip
    · rw [kept_below hskip, List.nil_append]
      exact ih hclean h
    · obtain ⟨mid, hmid, hrest⟩ := Result.bind_ok.1 h
      have hclean' : ∀ n ∈ dir ++ [name], n.text ∉ skipDirs := by
        intro n hn
        obtain hn | hn := List.mem_append.1 hn
        · exact hclean n hn
        · exact List.mem_singleton.1 hn ▸ hskip
      rw [ih hclean hrest, ihIn hclean' hmid, List.append_assoc]
  | other name rest ih =>
    intro dir out found _ h
    cases h

/-! ## What the hashed bytes tell -/

theorem framed_entry : Framed (fun e : String × List UInt8 => (utf8 e.1).length < 256 ^ 8 ∧ e.2.length < 256 ^ 8)
    entryBytes :=
  ((framed_beBytes 8).counted fun _ _ => utf8_inj.1).append ((framed_beBytes 8).counted Function.injective_id)

theorem entryBytes_ne_nil (e : String × List UInt8) : entryBytes e ≠ [] := by
  intro h
  have hlen := congrArg List.length h
  simp [entryBytes] at hlen

theorem mem_keyed {files : List SourceFile} {rel : String} {f : SourceFile} :
    (rel, f) ∈ keyed files ↔ f ∈ files ∧ relText f.path = rel := by
  unfold keyed
  rw [(List.mergeSort_perm _ _).mem_iff, List.mem_map]
  constructor
  · rintro ⟨f', hf, heq⟩
    obtain ⟨rfl, rfl⟩ := Prod.mk.inj heq
    exact ⟨hf, rfl⟩
  · rintro ⟨hf, rfl⟩
    exact ⟨f, hf, rfl⟩

theorem readAll_ok {base : String} {ks : List (String × SourceFile)} {entries : List (String × List UInt8)}
    (h : readAll base ks = .ok entries) : (∀ k ∈ ks, ∃ bytes, k.2.read = .ok bytes) ∧
      ∀ rel bytes, (rel, bytes) ∈ entries ↔ ∃ f, (rel, f) ∈ ks ∧ f.read = .ok bytes := by
  induction ks generalizing entries with
  | nil =>
    obtain rfl := Except.ok.inj h
    exact ⟨fun k hk => absurd hk List.not_mem_nil, fun rel bytes => by simp⟩
  | cons k ks ih =>
    obtain ⟨rel, f⟩ := k
    unfold readAll at h
    obtain ⟨bytes, hread, h⟩ := Result.bind_ok.1 h
    obtain ⟨others, hothers, h⟩ := Result.bind_ok.1 h
    obtain rfl := Except.ok.inj h
    have hbytes : f.read = .ok bytes := Result.mapError_ok.1 hread
    obtain ⟨hall, hmem⟩ := ih hothers
    refine ⟨?_, ?_⟩
    · intro k hk
      obtain rfl | hk := List.mem_cons.1 hk
      · exact ⟨bytes, hbytes⟩
      · exact hall k hk
    · intro rel' bytes'
      rw [List.mem_cons, hmem]
      constructor
      · rintro (heq | ⟨f', hf', hread'⟩)
        · obtain ⟨rfl, rfl⟩ := Prod.mk.inj heq
          exact ⟨f, List.mem_cons_self, hbytes⟩
        · exact ⟨f', List.mem_cons_of_mem _ hf', hread'⟩
      · rintro ⟨f', hf', hread'⟩
        obtain heq | hf' := List.mem_cons.1 hf'
        · obtain ⟨rfl, rfl⟩ := Prod.mk.inj heq
          rw [hbytes] at hread'
          exact Or.inl (by rw [Except.ok.inj hread'])
        · exact Or.inr ⟨f', hf', hread'⟩

namespace SourceTree

def Holds (t : SourceTree) (p : Path) (bytes : List UInt8) : Prop := ⟨p, .ok bytes⟩ ∈ t.listing.files []

theorem preimage_files {t : SourceTree} {base : String} {x : List UInt8} (h : preimage base t.listing = .ok x) :
    ∃ entries : List (String × List UInt8), x = digestDomain ++ entries.flatMap entryBytes ∧
      ∀ rel bytes, (rel, bytes) ∈ entries ↔ ∃ p, relText p = rel ∧ ¬ Skipped p ∧ t.Holds p bytes := by
  obtain ⟨found, hfound, h⟩ := Result.bind_ok.1 h
  obtain ⟨entries, hentries, h⟩ := Result.bind_ok.1 h
  obtain rfl := Except.ok.inj h
  have hkept := collect_ok (fun n hn => absurd hn List.not_mem_nil) hfound
  rw [List.nil_append] at hkept
  refine ⟨entries, rfl, fun rel bytes => ?_⟩
  rw [(readAll_ok hentries).2, hkept]
  simp only [mem_keyed, kept, List.mem_filter, decide_not, Bool.not_eq_true', decide_eq_false_iff_not]
  constructor
  · rintro ⟨⟨p, read⟩, ⟨⟨hmem, hskip⟩, hrel⟩, rfl⟩
    exact ⟨p, hrel, hskip, hmem⟩
  · rintro ⟨p, hrel, hskip, hmem⟩
    exact ⟨⟨p, .ok bytes⟩, ⟨⟨hmem, hskip⟩, hrel⟩, rfl⟩

theorem texts_eq {t₁ t₂ : SourceTree} {base₁ base₂ : String} {x : List UInt8} (h₁ : preimage base₁ t₁.listing = .ok x)
    (h₂ : preimage base₂ t₂.listing = .ok x) (rel : String) (bytes : List UInt8) :
    (∃ p, relText p = rel ∧ ¬ Skipped p ∧ t₁.Holds p bytes) ↔ ∃ p, relText p = rel ∧ ¬ Skipped p ∧ t₂.Holds p bytes := by
  obtain ⟨e₁, hx₁, hmem₁⟩ := preimage_files h₁
  obtain ⟨e₂, hx₂, hmem₂⟩ := preimage_files h₂
  have hsized : ∀ {t : SourceTree} {entries : List (String × List UInt8)},
      (∀ rel bytes, (rel, bytes) ∈ entries ↔ ∃ p, relText p = rel ∧ ¬ Skipped p ∧ t.Holds p bytes) →
      ∀ e ∈ entries, (utf8 e.1).length < 256 ^ 8 ∧ e.2.length < 256 ^ 8 := by
    rintro t entries hmem ⟨rel, bytes⟩ he
    obtain ⟨p, rfl, -, hholds⟩ := (hmem rel bytes).1 he
    obtain ⟨hrel, hbytes⟩ := t.sized _ hholds
    exact ⟨hrel, hbytes bytes rfl⟩
  have hentries : e₁ = e₂ := by
    refine framed_entry.flatMap_inj entryBytes_ne_nil (hsized hmem₁) (hsized hmem₂) ?_
    exact List.append_cancel_left (hx₁.symm.trans hx₂)
  rw [← hmem₁, ← hmem₂, hentries]

def lone : Path → List UInt8 → Listing
  | [], _ => .done
  | [name], bytes => .file name (.ok bytes) .done
  | name :: below :: rest, bytes => .dir name (lone (below :: rest) bytes) .done

theorem files_lone (bytes : List UInt8) : ∀ {p : Path} (dir : Path), p ≠ [] →
    (lone p bytes).files dir = [⟨dir ++ p, .ok bytes⟩]
  | [], _, h => absurd rfl h
  | [name], dir, _ => rfl
  | name :: below :: rest, dir, _ => by
    unfold lone Listing.files
    rw [files_lone bytes (dir ++ [name]) (List.cons_ne_nil _ _), List.append_assoc, List.singleton_append]
    rfl

theorem distinct_lone (bytes : List UInt8) : ∀ p : Path, (lone p bytes).Distinct
  | [] => trivial
  | [_] => ⟨List.not_mem_nil, trivial⟩
  | _ :: below :: rest => ⟨List.not_mem_nil, distinct_lone bytes (below :: rest), trivial⟩

/-- A path that a tree can have and the walk does not skip. -/
structure Kept (p : Path) : Prop where
  ne_nil : p ≠ []
  walked : ¬ Skipped p
  sized : (utf8 (relText p)).length < 2 ^ 64

def single (p : Path) (h : Kept p) : SourceTree where
  listing := lone p []
  distinct := distinct_lone [] p
  sized := by
    intro f hf
    rw [files_lone [] [] h.ne_nil, List.mem_singleton] at hf
    subst hf
    refine ⟨h.sized, ?_⟩
    rintro bytes hbytes
    obtain rfl := Except.ok.inj hbytes
    exact Nat.two_pow_pos 64

theorem collect_lone (base : String) (bytes : List UInt8) : ∀ {p : Path} (dir : Path) (out : List SourceFile), p ≠ [] →
    (∀ n ∈ dir, n.text ∉ skipDirs) → ¬ Skipped (dir ++ p) →
    collect base dir (lone p bytes) out = .ok (out ++ [⟨dir ++ p, .ok bytes⟩])
  | [], _, _, h, _, _ => absurd rfl h
  | [name], dir, out, _, hclean, hwalked => by
    unfold lone collect
    rw [if_neg fun hskip => hwalked ((skipped_file hclean).2 hskip)]
    rfl
  | name :: below :: rest, dir, out, _, hclean, hwalked => by
    have hname : name.text ∉ skipDirs := by
      intro hskip
      refine hwalked (Or.inl ⟨name, ?_, hskip⟩)
      rw [List.dropLast_append_of_ne_nil (List.cons_ne_nil _ _)]
      simp
    have hclean' : ∀ n ∈ dir ++ [name], n.text ∉ skipDirs := by
      intro n hn
      obtain hn | hn := List.mem_append.1 hn
      · exact hclean n hn
      · exact List.mem_singleton.1 hn ▸ hname
    have hpath : dir ++ name :: below :: rest = dir ++ [name] ++ below :: rest := by simp
    unfold lone collect
    rw [if_neg hname, collect_lone base bytes (dir ++ [name]) out (List.cons_ne_nil _ _) hclean' (hpath ▸ hwalked), hpath]
    rfl

theorem preimage_single (base : String) {p : Path} (h : Kept p) :
    preimage base (single p h).listing = .ok (digestDomain ++ entryBytes (relText p, [])) := by
  unfold preimage single
  dsimp only
  rw [collect_lone base [] [] [] h.ne_nil (fun n hn => absurd hn List.not_mem_nil) h.walked]
  show (readAll base (keyed [⟨p, .ok []⟩]) >>= fun entries => pure (digestDomain ++ entries.flatMap entryBytes)) = _
  unfold keyed
  rw [List.map_singleton, List.mergeSort_singleton]
  show (Except.ok (digestDomain ++ (entryBytes (relText p, []) ++ []))) = _
  rw [List.append_nil]

theorem holds_single {p q : Path} (h : Kept p) {bytes : List UInt8} : (single p h).Holds q bytes ↔ q = p ∧ bytes = [] := by
  unfold Holds single
  rw [files_lone [] [] h.ne_nil, List.mem_singleton, SourceFile.mk.injEq, Except.ok.injEq, List.nil_append]

/-- All files that count have their paths in `A`. -/
def Over (t : SourceTree) (A : Set Path) : Prop := ∀ p bytes, t.Holds p bytes → ¬ Skipped p → p ∈ A

end SourceTree

open SourceTree

/-- Digests tell the files of trees over `A`: wherever the hash does not collide on the two trees' bytes, trees of equal
digests have the same files with the same bytes, apart from what is skipped. -/
def CollisionFree (blake : List UInt8 → Vector UInt8 32) (A : Set Path) : Prop :=
  ∀ (t₁ t₂ : SourceTree) (base₁ base₂ digest : String), t₁.Over A → t₂.Over A →
    sourceDigest blake base₁ t₁.listing = .ok digest → sourceDigest blake base₂ t₂.listing = .ok digest →
    Set.InjOn blake {x | preimage base₁ t₁.listing = .ok x ∨ preimage base₂ t₂.listing = .ok x} →
    ∀ p bytes, ¬ Skipped p → (t₁.Holds p bytes ↔ t₂.Holds p bytes)

theorem sourceDigest_ok {blake : List UInt8 → Vector UInt8 32} {base digest : String} {l : Listing} :
    sourceDigest blake base l = .ok digest ↔ ∃ x, preimage base l = .ok x ∧ hexText (blake x).toList = digest := by
  unfold sourceDigest
  simp only [Result.bind_ok, Result.pure_ok]

theorem injOn_of_eq {blake : List UInt8 → Vector UInt8 32} {a b : Except String (List UInt8)} (h : b = a) :
    Set.InjOn blake {x | a = .ok x ∨ b = .ok x} := by
  subst h
  rintro x (hx | hx) y (hy | hy) _ <;> exact Except.ok.inj (hx.symm.trans hy)

/-- Among trees over some paths, digests tell the files exactly when no two of these paths have the same text. -/
theorem collision_free_iff (blake : List UInt8 → Vector UInt8 32) (A : Set Path) :
    CollisionFree blake A ↔ Set.InjOn relText {p | p ∈ A ∧ Kept p} := by
  constructor
  · -- two paths of one text make two trees of one file
    rintro hfree p ⟨hpA, hp⟩ q ⟨hqA, hq⟩ htext
    have hover : ∀ {r : Path} (hr : Kept r), r ∈ A → (single r hr).Over A := by
      intro r hr hrA r' bytes hholds _
      exact ((holds_single hr).1 hholds).1 ▸ hrA
    have hpre : preimage "" (single q hq).listing = preimage "" (single p hp).listing := by
      rw [preimage_single, preimage_single, htext]
    have hdigest : sourceDigest blake "" (single p hp).listing = .ok _ :=
      sourceDigest_ok.2 ⟨_, preimage_single "" hp, rfl⟩
    have hsame := hfree (single p hp) (single q hq) "" "" _ (hover hp hpA) (hover hq hqA) hdigest
      (sourceDigest_ok.2 ⟨_, hpre.trans (preimage_single "" hp), rfl⟩)
      (injOn_of_eq hpre) p [] hp.walked
    exact ((holds_single hq).1 (hsame.1 ((holds_single hp).2 ⟨rfl, rfl⟩))).1
  · intro htexts t₁ t₂ base₁ base₂ digest hover₁ hover₂ h₁ h₂ hinj
    obtain ⟨x₁, hx₁, hd₁⟩ := sourceDigest_ok.1 h₁
    obtain ⟨x₂, hx₂, hd₂⟩ := sourceDigest_ok.1 h₂
    have hx : x₁ = x₂ := hinj (Or.inl hx₁) (Or.inr hx₂) (Vector.toList_inj.1 (hexText_inj.1 (hd₁.trans hd₂.symm)))
    subst hx
    have hkept : ∀ {t : SourceTree} {p : Path} {bytes : List UInt8}, t.Holds p bytes → ¬ Skipped p → Kept p := by
      intro t p bytes hholds hwalked
      obtain ⟨rest, hne, hpath⟩ := path_of_mem_files hholds
      have hp : p ≠ [] := by
        rw [show p = rest from hpath]
        exact hne
      exact ⟨hp, hwalked, (t.sized _ hholds).1⟩
    -- a file of one tree has a file of the same text and bytes in the other, and so of the same path
    have hgo : ∀ {t t' : SourceTree} {base base' : String}, t.Over A → t'.Over A → preimage base t.listing = .ok x₁ →
        preimage base' t'.listing = .ok x₁ → ∀ p bytes, ¬ Skipped p → t.Holds p bytes → t'.Holds p bytes := by
      intro t t' base base' hover hover' hx hx' p bytes hwalked hholds
      obtain ⟨q, htext, hwalked', hholds'⟩ := (texts_eq hx hx' (relText p) bytes).1 ⟨p, rfl, hwalked, hholds⟩
      have hqp : q = p := htexts ⟨hover' q bytes hholds' hwalked', hkept hholds' hwalked'⟩
        ⟨hover p bytes hholds hwalked, hkept hholds hwalked⟩ htext
      exact hqp ▸ hholds'
    intro p bytes hwalked
    exact ⟨hgo hover₁ hover₂ hx₁ hx₂ p bytes hwalked, hgo hover₂ hover₁ hx₂ hx₁ p bytes hwalked⟩

/-! ## Texts that tell their paths -/

/-! One file with a backslash in its name, and one in a directory. The value is BLAKE3's. -/

def backslashed : Path := [⟨[97, 92, 98], by decide, by decide, by decide, by decide⟩]

def slashed : Path := [⟨[97], by decide, by decide, by decide, by decide⟩, ⟨[98], by decide, by decide, by decide, by decide⟩]

theorem relText_backslashed : relText backslashed = "a/b" := by decide +kernel

theorem relText_slashed : relText slashed = "a/b" := by decide +kernel

theorem kept_backslashed : Kept backslashed := ⟨by decide, by decide, by rw [relText_backslashed]; decide⟩

theorem kept_slashed : Kept slashed := ⟨by decide, by decide, by rw [relText_slashed]; decide⟩

def sampleBlake (x : List UInt8) : Vector UInt8 32 :=
  if x = digestDomain ++ entryBytes ("a/b", []) then
    #v[155, 122, 13, 125, 165, 52, 153, 129, 7, 198, 51, 143, 208, 168, 15, 120, 115, 137, 24, 85, 41, 88, 143, 3,
    226, 181, 129, 24, 80, 223, 15, 163]
  else .replicate 32 0

/-- A tree whose only file is named `a\b` has the digest of the tree whose only file is `b` in `a`. -/
theorem backslash_collides :
    ∃ digest, sourceDigest sampleBlake "" (single backslashed kept_backslashed).listing = .ok digest ∧
      sourceDigest sampleBlake "" (single slashed kept_slashed).listing = .ok digest ∧
      (single backslashed kept_backslashed).Holds backslashed [] ∧
      ¬ (single slashed kept_slashed).Holds backslashed [] ∧ ¬ CollisionFree sampleBlake Set.univ := by
  have hpre : preimage "" (single slashed kept_slashed).listing =
      preimage "" (single backslashed kept_backslashed).listing := by
    rw [preimage_single, preimage_single, relText_backslashed, relText_slashed]
  have hne : backslashed ≠ slashed := by decide
  have h₁ : sourceDigest sampleBlake "" (single backslashed kept_backslashed).listing = .ok _ :=
    sourceDigest_ok.2 ⟨_, preimage_single "" kept_backslashed, rfl⟩
  have h₂ : sourceDigest sampleBlake "" (single slashed kept_slashed).listing = .ok _ :=
    sourceDigest_ok.2 ⟨_, hpre.trans (preimage_single "" kept_backslashed), rfl⟩
  have hholds : (single backslashed kept_backslashed).Holds backslashed [] := (holds_single _).2 ⟨rfl, rfl⟩
  have hnot : ¬ (single slashed kept_slashed).Holds backslashed [] := fun h => hne ((holds_single _).1 h).1
  refine ⟨_, h₁, h₂, hholds, hnot, fun hfree => hnot ?_⟩
  exact (hfree _ _ "" "" _ (fun _ _ _ _ => trivial) (fun _ _ _ _ => trivial) h₁ h₂ (injOn_of_eq hpre) backslashed []
    kept_backslashed.walked).1 hholds

end SovereignCore.Closure
