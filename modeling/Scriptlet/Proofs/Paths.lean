import Mathlib
import Scriptlet.CommandLine

/-!
# Paths in their plainest form

The plainest form of a path is made of its parts, without those that are empty or lead nowhere, behind the
slashes that it begins with, of which two at most count.  The parts can be read off it again, so a path in
its plainest form stays as it is, and so does the path that it becomes when its last part is made longer.
This is how the tree of a program gets its name.
-/

namespace Scriptlet.CommandLine

/-! ## Parts -/

/-- A part of a path that a path in its plainest form may have. -/
def IsPart (part : List Char) : Prop :=
  '/' ∉ part ∧ part ≠ [] ∧ part ≠ ['.']

instance : DecidablePred IsPart :=
  fun _ => inferInstanceAs (Decidable (_ ∧ _ ∧ _))

/-- The path of some parts, behind a number of slashes. -/
def pathOf (slashes : ℕ) (parts : List (List Char)) : String :=
  String.ofList (List.replicate slashes '/' ++ ['/'].intercalate parts)

/-- The number of slashes that a path begins with in its plainest form. -/
def slashes : List Char → ℕ
  | '/' :: '/' :: '/' :: _ => 1
  | '/' :: '/' :: _ => 2
  | '/' :: _ => 1
  | _ => 0

lemma slashes_le (cs : List Char) : slashes cs ≤ 2 := by
  unfold slashes
  split <;> simp

/-- The parts that a path has in its plainest form. -/
def partsOf (cs : List Char) : List (List Char) :=
  (cs.splitOn '/').filter fun part => part ≠ [] && part ≠ ['.']

/-- Normalizing a path keeps its slashes, as far as they matter, and its parts, and the path of nothing is a
dot. -/
lemma normalize_eq (path : String) :
    normalize path =
      if (pathOf (slashes path.toList) (partsOf path.toList)).isEmpty then "."
      else pathOf (slashes path.toList) (partsOf path.toList) := by
  have hplain : ∀ n parts, String.ofList (List.replicate n '/') ++
      "/".intercalate (parts.map String.ofList) = pathOf n parts := by
    intro n parts
    apply String.toList_injective
    simp [pathOf, String.toList_intercalate, List.map_map, Function.comp_def]
  have hroot : ∀ cs : List Char, (match cs with
      | '/' :: '/' :: '/' :: _ => "/"
      | '/' :: '/' :: _ => "//"
      | '/' :: _ => "/"
      | _ => "") = String.ofList (List.replicate (slashes cs) '/') := by
    intro cs
    unfold slashes
    split <;> rfl
  rw [← hplain, ← hroot]
  rfl

/-- No piece between slashes holds a slash. -/
lemma slash_not_mem_of_mem_splitOn {cs part : List Char} (h : part ∈ cs.splitOn '/') : '/' ∉ part := by
  induction cs generalizing part with
  | nil =>
    rw [List.splitOn_nil, List.mem_singleton] at h
    simp [h]
  | cons c cs ih =>
    unfold List.splitOn at h ih
    rw [List.splitOnP_cons_eq_if_modifyHead] at h
    split at h
    · rcases List.mem_cons.mp h with rfl | h
      · simp
      · exact ih h
    · obtain ⟨first, rest, hsplit⟩ := List.exists_cons_of_ne_nil (List.splitOnP_ne_nil (· == '/') cs)
      rw [hsplit] at h ih
      rcases List.mem_cons.mp h with rfl | h
      · have hc : ¬ '/' = c := by
          rintro rfl
          contradiction
        simpa [hc] using ih (List.mem_cons_self ..)
      · exact ih (List.mem_cons_of_mem _ h)

/-- The parts of a path are parts that a plain path may have. -/
lemma isPart_of_mem_partsOf {cs part : List Char} (h : part ∈ partsOf cs) : IsPart part := by
  obtain ⟨hmem, hpart⟩ := List.mem_filter.mp h
  exact ⟨slash_not_mem_of_mem_splitOn hmem, by simpa using hpart⟩

variable {n : ℕ} {parts : List (List Char)}

/-- Slashes in front are empty parts. -/
lemma intercalate_replicate_append (n : ℕ) (h : parts ≠ []) :
    ['/'].intercalate (List.replicate n [] ++ parts) = List.replicate n '/' ++ ['/'].intercalate parts := by
  induction n with
  | zero => rfl
  | succ n ih =>
    rw [List.replicate_succ, List.cons_append, List.intercalate_cons_of_ne_nil (by simp [h]), ih]
    rfl

/-- The parts of the path made of some parts are these parts. -/
lemma partsOf_pathOf (hne : parts ≠ []) (hparts : ∀ part ∈ parts, IsPart part) :
    partsOf (pathOf n parts).toList = parts := by
  -- splitting finds an empty part before each slash in front; these are the parts that are dropped
  have hsplit : (pathOf n parts).toList.splitOn '/' = List.replicate n [] ++ parts := by
    rw [pathOf, String.toList_ofList, ← intercalate_replicate_append n hne]
    refine List.splitOn_intercalate '/' (fun part hpart => ?_) (by simp [hne])
    rcases List.mem_append.mp hpart with hpart | hpart
    · simp [List.eq_of_mem_replicate hpart]
    · exact (hparts part hpart).1
  have hkeep : parts.filter (fun part => part ≠ [] && part ≠ ['.']) = parts :=
    List.filter_eq_self.mpr fun part hpart => by simpa using (hparts part hpart).2
  rw [partsOf, hsplit, List.filter_append, hkeep]
  simp

/-- The path made of some parts begins with as many slashes as it was given. -/
lemma slashes_pathOf (hn : n ≤ 2) (hne : parts ≠ []) (hparts : ∀ part ∈ parts, IsPart part) :
    slashes (pathOf n parts).toList = n := by
  obtain ⟨part, rest, rfl⟩ := List.exists_cons_of_ne_nil hne
  obtain ⟨hslash, hpart, -⟩ := hparts part (by simp)
  obtain ⟨c, cs, rfl⟩ := List.exists_cons_of_ne_nil hpart
  have hc : c ≠ '/' := by
    rintro rfl
    exact hslash (by simp)
  obtain ⟨tail, htail⟩ : ∃ tail, ['/'].intercalate ((c :: cs) :: rest) = c :: tail := by
    cases rest <;> simp
  rw [pathOf, String.toList_ofList, htail]
  interval_cases n <;> simp [slashes, hc]

/-- A path in its plainest form stays as it is. -/
lemma normalize_pathOf (hn : n ≤ 2) (hne : parts ≠ []) (hparts : ∀ part ∈ parts, IsPart part) :
    normalize (pathOf n parts) = pathOf n parts := by
  have hpath : (pathOf n parts).isEmpty = false := by
    have hempty : partsOf "".toList = [] := by decide
    rw [← Bool.not_eq_true, String.isEmpty_iff]
    intro h
    have hback := partsOf_pathOf (n := n) hne hparts
    rw [h, hempty] at hback
    exact hne hback.symm
  rw [normalize_eq, slashes_pathOf hn hne hparts, partsOf_pathOf hne hparts, hpath]
  simp

/-- A suffix without slashes belongs to the last part. -/
lemma exists_parts_append {suffix : List Char} (hsuffix : IsPart suffix)
    (hlong : ∀ part, part ++ suffix ≠ ['.']) (hparts : ∀ part ∈ parts, IsPart part) :
    ∃ parts' ≠ [], (∀ part ∈ parts', IsPart part) ∧
      ['/'].intercalate parts ++ suffix = ['/'].intercalate parts' := by
  induction parts with
  | nil => exact ⟨[suffix], by simp, by simpa using hsuffix, by simp⟩
  | cons part rest ih =>
    obtain ⟨hpart, hrest⟩ := List.forall_mem_cons.mp hparts
    cases rest with
    | nil =>
      refine ⟨[part ++ suffix], by simp, ?_, by simp⟩
      simpa [IsPart, hlong part] using ⟨⟨hpart.1, hsuffix.1⟩, fun h => absurd h hpart.2.1⟩
    | cons next rest =>
      obtain ⟨parts', hne, hparts', heq⟩ := ih hrest
      refine ⟨part :: parts', by simp, List.forall_mem_cons.mpr ⟨hpart, hparts'⟩, ?_⟩
      rw [List.intercalate_cons_of_ne_nil (by simp), List.intercalate_cons_of_ne_nil hne,
        List.append_assoc, heq]


/-! ## Names of stored trees -/

/-- The name under which the tree of a program is stored is in its plainest form. -/
lemma normalize_target (path : String) :
    normalize (normalize path ++ ".ast.json") = normalize path ++ ".ast.json" := by
  have hlong : ∀ part, part ++ ".ast.json".toList ≠ ['.'] := by
    intro part h
    have hlength := congrArg List.length h
    simp at hlength
  have hsuffix : IsPart ".ast.json".toList := by decide
  have htarget : ∃ n ≤ 2, ∃ parts ≠ [], (∀ part ∈ parts, IsPart part) ∧
      normalize path ++ ".ast.json" = pathOf n parts := by
    rw [normalize_eq]
    split
    · exact ⟨0, by simp, [".".toList ++ ".ast.json".toList], by simp, by decide, by decide⟩
    · obtain ⟨parts, hne, hparts, heq⟩ :=
        exists_parts_append hsuffix hlong fun part (hpart : part ∈ partsOf path.toList) =>
          isPart_of_mem_partsOf hpart
      refine ⟨slashes path.toList, slashes_le _, parts, hne, hparts, ?_⟩
      apply String.toList_injective
      rw [pathOf, pathOf, String.toList_append, String.toList_ofList, List.append_assoc, heq,
        String.toList_ofList]
  obtain ⟨n, hn, parts, hne, hparts, heq⟩ := htarget
  rw [heq, normalize_pathOf hn hne hparts]

lemma target_ne_empty (path : String) : normalize path ++ ".ast.json" ≠ "" := by
  intro h
  have hlength := congrArg String.length h
  simp at hlength

end Scriptlet.CommandLine
