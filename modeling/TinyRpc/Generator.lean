import Mathlib.Data.List.Induction
import Mathlib.Data.List.Nodup
import Mathlib.Tactic.Common

/-!
# The names of the generator

`hl_generator.py`. For each method of a service the generator writes a class and
three files, under names that it makes from the name of the method. A file that
is there already is left alone.
-/

namespace TinyRpc.Generator

abbrev Name := List Char

/-! ## The functions of `hl_generator.py` -/

def capitalize : Name → Name
  | [] => []
  | c :: cs => c.toUpper :: cs.map Char.toLower

def to_camel (input_s : Name) : Name :=
  if !input_s.contains '_' then input_s else (input_s.splitOn '_').flatMap capitalize

/-- What `to_underline` makes of a character. -/
def underline (s : Char) : Name := if s.isLower then [s] else ['_', s.toLower]

def to_underline (input_s : Name) : Name := ((to_camel input_s).flatMap underline).drop 1

structure Interface where
  interface_name : Name
  method_name : Name
  interface_class_name : Name

def interface_list (method_list : List Name) : List Interface :=
  method_list.map fun method_name => {
    interface_name := to_underline method_name
    method_name
    interface_class_name := to_camel method_name ++ "Interface".toList }

def src_path (proj_path project_name : Name) : Name := proj_path ++ '/' :: project_name

def test_client_path (proj_path : Name) : Name := proj_path ++ "/test_client".toList

/-- The paths that are there, each with the method that the file was written for. -/
abbrev Files := List (Name × Option Name)

/-- A file that is there already is left alone. -/
def write (files : Files) (file : Name) (method_name : Option Name) : Files :=
  if (files.map Prod.fst).contains file then files else files ++ [(file, method_name)]

/-- The files of the class that all interfaces have as their base. -/
def base_files (src_path : Name) (files : Files) : Files :=
  write (write files (src_path ++ "/interface/interface.h".toList) none)
    (src_path ++ "/interface/interface.cc".toList) none

def method_files (src_path test_client_path interface_name : Name) : List Name :=
  [src_path ++ "/interface/".toList ++ interface_name ++ ".h".toList,
    src_path ++ "/interface/".toList ++ interface_name ++ ".cc".toList,
    test_client_path ++ "/test_".toList ++ interface_name ++ "_client.cc".toList]

/-- One turn of the loop over the methods. -/
def interface_files (src_path test_client_path : Name) (files : Files) (each : Interface) :
    Files :=
  (method_files src_path test_client_path each.interface_name).foldl
    (fun files file => write files file (some each.method_name)) files

/-- The part of `generate_framework_code` that writes the interfaces, when `files` are
there already. -/
def generate (src_path test_client_path : Name) (interfaces : List Interface) (files : Files) :
    Files :=
  interfaces.foldl (interface_files src_path test_client_path) (base_files src_path files)

/-- The file was there in front of the loop over the methods, or it was written for
this one. -/
def Owns (proj_path project_name : Name) (files : Files) (interfaces : List Interface)
    (method_name file : Name) : Prop :=
  file ∈ (base_files (src_path proj_path project_name) files).map Prod.fst ∨
    (file, some method_name) ∈
      generate (src_path proj_path project_name) (test_client_path proj_path) interfaces files

/-- Each method has a name for its files, and a class of its own, and none of its files
is skipped because another method has written it. -/
structure Separate (names : List Name) : Prop where
  named : ∀ name ∈ names, to_underline name ≠ []
  files : (names.map to_underline).Nodup
  own : ∀ proj_path project_name files, ∀ name ∈ names,
    ∀ file ∈ method_files (src_path proj_path project_name) (test_client_path proj_path)
      (to_underline name),
      Owns proj_path project_name files (interface_list names) name file
  classes : ((interface_list names).map Interface.interface_class_name).Nodup

/-! ## How a name is read -/

/-- A character of an identifier. -/
def IsWord (c : Char) : Bool := c.isAlphanum ∨ c = '_'

def IsIdentifier : Name → Prop
  | [] => False
  | c :: cs => (c.isAlpha ∨ c = '_') ∧ cs.all IsWord

/-- The letters and digits, without their case. A digit is marked, and a letter at the
start of a word. -/
def readWords : Bool → Name → List (Char × Bool)
  | _, [] => []
  | start, c :: cs =>
    if c = '_' then readWords true cs
    else (c.toLower, start || c.isDigit) :: readWords false cs

theorem readWords_cons (start : Bool) (c : Char) (cs : Name) :
    readWords start (c :: cs) = if c = '_' then readWords true cs
      else (c.toLower, start || c.isDigit) :: readWords false cs := rfl

/-- In a name without underscores the capital letters start the words. -/
def pieces (name : Name) : List (Char × Bool) :=
  if name.contains '_' then readWords true name else name.map fun c => (c.toLower, !c.isLower)

/-- A mark is an underscore. -/
def render (l : List (Char × Bool)) : Name :=
  l.flatMap fun p => if p.2 then ['_', p.1] else [p.1]

/-- What is left when the first character is dropped: the mark goes, or the letter. -/
def dropFirst : List (Char × Bool) → List (Char × Bool)
  | [] => []
  | (c, true) :: l => (c, false) :: l
  | (_, false) :: l => l

theorem render_cons (p : Char × Bool) (l : List (Char × Bool)) :
    render (p :: l) = (if p.2 then ['_', p.1] else [p.1]) ++ render l := rfl

theorem render_dropFirst (l : List (Char × Bool)) : render (dropFirst l) = (render l).drop 1 := by
  cases l with
  | nil => rfl
  | cons p l =>
    obtain ⟨c, mark⟩ := p
    cases mark <;> rfl

/-- An underscore is always a mark, as no character is one. -/
theorem render_injective {l m : List (Char × Bool)} (hl : ∀ p ∈ l, p.1 ≠ '_')
    (hm : ∀ p ∈ m, p.1 ≠ '_') (h : render l = render m) : l = m := by
  induction l generalizing m with
  | nil =>
    cases m with
    | nil => rfl
    | cons q m =>
      obtain ⟨c, mark⟩ := q
      cases mark <;> cases h
  | cons p l ih =>
    obtain ⟨c, mark⟩ := p
    obtain ⟨hc, hl'⟩ := List.forall_mem_cons.mp hl
    cases m with
    | nil => cases mark <;> cases h
    | cons q m =>
      obtain ⟨d, mark'⟩ := q
      obtain ⟨hd, hm'⟩ := List.forall_mem_cons.mp hm
      cases mark <;> cases mark'
      · obtain ⟨rfl, hrest⟩ := List.cons.inj h
        rw [ih hl' hm' hrest]
      · exact absurd (List.cons.inj h).1 hc
      · exact absurd (List.cons.inj h).1.symm hd
      · obtain ⟨-, h⟩ := List.cons.inj h
        obtain ⟨rfl, hrest⟩ := List.cons.inj h
        rw [ih hl' hm' hrest]

/-! ### Characters -/

theorem forall_ascii {p : Char → Prop} (h : ∀ n < 128, p (Char.ofNat n)) {c : Char}
    (hc : c.toNat < 128) : p c := by
  rw [← Char.ofNat_toNat c]
  exact h _ hc

theorem isAlphanum_lt {c : Char} (h : c.isAlphanum) : c.toNat < 128 := by
  change ((decide (c.val ≥ 'A'.val ∧ c.val ≤ 'Z'.val) || (c.val ≥ 'a'.val && c.val ≤ 'z'.val)) ||
    (c.val ≥ '0'.val && c.val ≤ '9'.val)) = true at h
  simp only [Bool.or_eq_true, Bool.and_eq_true, decide_eq_true_eq, UInt32.le_iff_toNat_le] at h
  have hz : 'z'.val.toNat = 122 := rfl
  have hZ : 'Z'.val.toNat = 90 := rfl
  have hnine : '9'.val.toNat = 57 := rfl
  change c.val.toNat < 128
  omega

/-- What the functions on characters do to a letter or a digit. -/
structure Cases (c : Char) : Prop where
  upper : underline c.toUpper = ['_', c.toLower]
  lower : underline c.toLower = if c.isDigit then ['_', c.toLower] else [c.toLower]
  same : underline c = if c.isLower then [c.toLower] else ['_', c.toLower]
  ne : c.toLower ≠ '_'
  slash : c.toLower ≠ '/'

instance (c : Char) : Decidable (Cases c) :=
  decidable_of_iff (underline c.toUpper = ['_', c.toLower] ∧
      (underline c.toLower = if c.isDigit then ['_', c.toLower] else [c.toLower]) ∧
      (underline c = if c.isLower then [c.toLower] else ['_', c.toLower]) ∧ c.toLower ≠ '_' ∧
      c.toLower ≠ '/')
    ⟨fun h => ⟨h.1, h.2.1, h.2.2.1, h.2.2.2.1, h.2.2.2.2⟩,
      fun h => ⟨h.upper, h.lower, h.same, h.ne, h.slash⟩⟩

theorem cases_of_isAlphanum {c : Char} (h : c.isAlphanum) : Cases c := by
  have hall : ∀ n < 128, (Char.ofNat n).isAlphanum → Cases (Char.ofNat n) := by decide +kernel
  exact forall_ascii (p := fun c => c.isAlphanum → Cases c) hall (isAlphanum_lt h) h

/-! ### Names -/

theorem IsIdentifier.isWord {name : Name} (h : IsIdentifier name) : ∀ c ∈ name, IsWord c := by
  cases name with
  | nil => cases h
  | cons c cs =>
    obtain ⟨hc, hcs⟩ := h
    refine List.forall_mem_cons.mpr ⟨?_, List.all_eq_true.mp hcs⟩
    rcases hc with hc | rfl
    · exact decide_eq_true (.inl (Bool.or_eq_true_iff.mpr (.inl hc)))
    · decide

theorem IsIdentifier.ne_nil {name : Name} (h : IsIdentifier name) : name ≠ [] := by
  rintro rfl
  exact h

theorem isAlphanum_of_ne {c : Char} (h : IsWord c) (hne : c ≠ '_') : c.isAlphanum := by
  unfold IsWord at h
  rw [decide_eq_true_eq] at h
  exact h.resolve_right hne

theorem underline_parts {cs : Name} (h : ∀ c ∈ cs, IsWord c) : ∀ part parts,
    cs.splitOn '_' = part :: parts →
      ((part :: parts).flatMap capitalize).flatMap underline = render (readWords true cs) ∧
      (part.map Char.toLower ++ parts.flatMap capitalize).flatMap underline =
        render (readWords false cs) := by
  induction cs with
  | nil =>
    rintro part parts hsplit
    cases hsplit
    exact ⟨rfl, rfl⟩
  | cons c cs ih =>
    obtain ⟨hc, hcs⟩ := List.forall_mem_cons.mp h
    intro part parts hsplit
    obtain ⟨part', parts', hparts⟩ := List.exists_cons_of_ne_nil (List.splitOn_ne_nil '_' cs)
    obtain ⟨htrue, hfalse⟩ := ih hcs part' parts' hparts
    rw [List.splitOn_cons_eq_if_modifyHead, hparts] at hsplit
    -- An underscore ends a part, and the next character starts a word.
    by_cases hsep : c = '_'
    · rw [if_pos (by simpa using hsep)] at hsplit
      cases hsplit
      rw [readWords_cons, readWords_cons, if_pos hsep, if_pos hsep, ← htrue]
      exact ⟨rfl, rfl⟩
    · rw [if_neg (by simpa using hsep)] at hsplit
      cases hsplit
      have hcases := cases_of_isAlphanum (isAlphanum_of_ne hc hsep)
      rw [readWords_cons, readWords_cons, if_neg hsep, if_neg hsep, render_cons, render_cons,
        ← hfalse]
      constructor
      · simp [capitalize, hcases.upper]
      · simp [hcases.lower]

theorem underline_camel {name : Name} (h : ∀ c ∈ name, IsWord c) :
    (to_camel name).flatMap underline = render (pieces name) := by
  unfold to_camel pieces
  by_cases hsep : '_' ∈ name
  · rw [if_neg (by simpa using hsep), if_pos (by simpa using hsep)]
    obtain ⟨part, parts, hparts⟩ := List.exists_cons_of_ne_nil (List.splitOn_ne_nil '_' name)
    rw [hparts]
    exact (underline_parts h part parts hparts).1
  · rw [if_pos (by simpa using hsep), if_neg (by simpa using hsep)]
    unfold render
    rw [List.flatMap_map]
    refine List.flatMap_congr fun c hc => ?_
    have hne : c ≠ '_' := fun heq => hsep (heq ▸ hc)
    rw [(cases_of_isAlphanum (isAlphanum_of_ne (h c hc) hne)).same]
    cases c.isLower <;> rfl

theorem to_underline_eq {name : Name} (h : ∀ c ∈ name, IsWord c) :
    to_underline name = render (dropFirst (pieces name)) := by
  unfold to_underline
  rw [underline_camel h, render_dropFirst]

theorem forall_readWords {p : Char → Prop} (hp : ∀ c : Char, c.isAlphanum → p c.toLower)
    {cs : Name} (h : ∀ c ∈ cs, IsWord c) (start : Bool) : ∀ q ∈ readWords start cs, p q.1 := by
  induction cs generalizing start with
  | nil => exact fun _ hq => nomatch hq
  | cons c cs ih =>
    obtain ⟨hc, hcs⟩ := List.forall_mem_cons.mp h
    unfold readWords
    split
    · exact ih hcs true
    · rename_i hne
      exact List.forall_mem_cons.mpr ⟨hp c (isAlphanum_of_ne hc hne), ih hcs false⟩

theorem forall_pieces {p : Char → Prop} (hp : ∀ c : Char, c.isAlphanum → p c.toLower)
    {name : Name} (h : ∀ c ∈ name, IsWord c) : ∀ q ∈ pieces name, p q.1 := by
  unfold pieces
  split
  · exact forall_readWords hp h true
  · rename_i hsep
    intro q hq
    obtain ⟨c, hc, rfl⟩ := List.mem_map.mp hq
    have hne : c ≠ '_' := fun heq => hsep (List.contains_iff_mem.mpr (heq ▸ hc))
    exact hp c (isAlphanum_of_ne (h c hc) hne)

theorem pieces_ne {name : Name} (h : ∀ c ∈ name, IsWord c) : ∀ p ∈ pieces name, p.1 ≠ '_' :=
  forall_pieces (p := (· ≠ '_')) (fun _ hc => (cases_of_isAlphanum hc).ne) h

theorem forall_dropFirst {p : Char → Prop} {l : List (Char × Bool)} (h : ∀ q ∈ l, p q.1) :
    ∀ q ∈ dropFirst l, p q.1 := by
  cases l with
  | nil => exact h
  | cons q l =>
    obtain ⟨c, mark⟩ := q
    obtain ⟨hc, hl⟩ := List.forall_mem_cons.mp h
    cases mark with
    | true => exact List.forall_mem_cons.mpr ⟨hc, hl⟩
    | false => exact hl

theorem mem_render {l : List (Char × Bool)} {c : Char} (h : c ∈ render l) :
    c = '_' ∨ ∃ p ∈ l, p.1 = c := by
  obtain ⟨p, hp, hc⟩ := List.mem_flatMap.mp h
  split at hc
  · obtain rfl | hc := List.mem_cons.mp hc
    · exact Or.inl rfl
    · exact Or.inr ⟨p, hp, (List.mem_singleton.mp hc).symm⟩
  · exact Or.inr ⟨p, hp, (List.mem_singleton.mp hc).symm⟩

theorem slash_notMem {name : Name} (h : IsIdentifier name) : '/' ∉ to_underline name := by
  rw [to_underline_eq h.isWord]
  intro hmem
  obtain heq | ⟨p, hp, heq⟩ := mem_render hmem
  · exact absurd heq (by decide)
  · have hpieces : ∀ q ∈ pieces name, q.1 ≠ '/' :=
      forall_pieces (p := (· ≠ '/')) (fun _ hc => (cases_of_isAlphanum hc).slash) h.isWord
    exact forall_dropFirst (p := (· ≠ '/')) hpieces p hp heq

/-! ## Names without a file of their own -/

/-- Nothing is left of the name. -/
def Vanishes (name : Name) : Prop := (∀ c ∈ name, c = '_') ∨ ∃ c, name = [c] ∧ c.isLower

/-- Two names are read in the same way, or in the same way but for a first letter that is
dropped. -/
inductive Clash (name name' : Name) : Prop
  | same (h : pieces name = pieces name')
  | first (c d : Char) (l : List (Char × Bool)) (h : pieces name = (c, false) :: l)
    (h' : pieces name' = (d, false) :: l)
  | dropped (c d : Char) (l : List (Char × Bool)) (h : pieces name = (c, false) :: (d, false) :: l)
    (h' : pieces name' = (d, true) :: l)
  | dropped' (c d : Char) (l : List (Char × Bool)) (h : pieces name = (d, true) :: l)
    (h' : pieces name' = (c, false) :: (d, false) :: l)

theorem readWords_nil {start : Bool} {cs : Name} :
    readWords start cs = [] ↔ ∀ c ∈ cs, c = '_' := by
  induction cs generalizing start with
  | nil => simp [readWords]
  | cons c cs ih =>
    rw [readWords_cons, List.forall_mem_cons]
    split
    · rename_i hsep
      rw [ih]
      exact (and_iff_right hsep).symm
    · rename_i hsep
      constructor
      · intro hnil
        cases hnil
      · exact fun hall => absurd hall.1 hsep

theorem readWords_first {cs : Name} {c : Char} {mark : Bool} {l : List (Char × Bool)}
    (h : readWords true cs = (c, mark) :: l) : mark = true := by
  induction cs with
  | nil => cases h
  | cons d cs ih =>
    rw [readWords_cons] at h
    split at h
    · exact ih h
    · cases h
      rfl

theorem pieces_nil {name : Name} (hne : name ≠ []) : pieces name = [] ↔ ∀ c ∈ name, c = '_' := by
  unfold pieces
  split
  · exact readWords_nil
  · rename_i hsep
    refine ⟨fun h => absurd (List.map_eq_nil_iff.mp h) hne, fun h => ?_⟩
    obtain ⟨c, cs, rfl⟩ := List.exists_cons_of_ne_nil hne
    obtain rfl := h c List.mem_cons_self
    exact absurd (List.contains_iff_mem.mpr List.mem_cons_self) hsep

theorem pieces_single {name : Name} : (∃ c, pieces name = [(c, false)]) ↔
    ∃ c, name = [c] ∧ c.isLower := by
  unfold pieces
  constructor
  · rintro ⟨c, h⟩
    split at h
    · cases readWords_first h
    · obtain ⟨d, rfl, hd⟩ := List.map_eq_singleton_iff.mp h
      exact ⟨d, rfl, by simpa using (Prod.mk.inj hd).2⟩
  · rintro ⟨c, rfl, hc⟩
    have hne : '_' ≠ c := by
      rintro rfl
      exact absurd hc (by decide)
    exact ⟨c.toLower, by rw [if_neg (by simpa using hne)]; simp [hc]⟩

theorem dropFirst_nil {name : Name} (hne : name ≠ []) :
    dropFirst (pieces name) = [] ↔ Vanishes name := by
  unfold Vanishes
  rw [← pieces_nil hne, ← pieces_single]
  cases pieces name with
  | nil => simp [dropFirst]
  | cons p l =>
    obtain ⟨c, mark⟩ := p
    cases mark <;> simp [dropFirst]

theorem clash_iff {name name' : Name} (h : dropFirst (pieces name) ≠ [])
    (h' : dropFirst (pieces name') ≠ []) :
    dropFirst (pieces name) = dropFirst (pieces name') ↔ Clash name name' := by
  constructor
  · intro heq
    cases hname : pieces name with
    | nil =>
      rw [hname] at h
      exact absurd rfl h
    | cons p l =>
      cases hname' : pieces name' with
      | nil =>
        rw [hname'] at h'
        exact absurd rfl h'
      | cons q m =>
        obtain ⟨c, mark⟩ := p
        obtain ⟨d, mark'⟩ := q
        rw [hname, hname'] at heq
        cases mark <;> cases mark'
        · simp only [dropFirst] at heq
          subst heq
          exact .first c d l hname hname'
        · simp only [dropFirst] at heq
          subst heq
          exact .dropped c d m hname hname'
        · simp only [dropFirst] at heq
          subst heq
          exact .dropped' d c l hname hname'
        · obtain ⟨hcd, rfl⟩ := List.cons.inj heq
          obtain ⟨rfl, -⟩ := Prod.mk.inj hcd
          exact .same (hname.trans hname'.symm)
  · rintro (hsame | ⟨c, d, l, hname, hname'⟩ | ⟨c, d, l, hname, hname'⟩ | ⟨c, d, l, hname, hname'⟩)
    · rw [hsame]
    all_goals
      rw [hname, hname']
      rfl

theorem to_underline_eq_iff {name name' : Name} (h : IsIdentifier name)
    (h' : IsIdentifier name') :
    to_underline name = to_underline name' ↔
      dropFirst (pieces name) = dropFirst (pieces name') := by
  rw [to_underline_eq h.isWord, to_underline_eq h'.isWord]
  refine ⟨fun heq => ?_, fun heq => by rw [heq]⟩
  exact render_injective (forall_dropFirst (p := (· ≠ '_')) (pieces_ne h.isWord))
    (forall_dropFirst (p := (· ≠ '_')) (pieces_ne h'.isWord)) heq

theorem to_underline_nil {name : Name} (h : IsIdentifier name) :
    to_underline name = [] ↔ Vanishes name := by
  rw [to_underline_eq h.isWord, ← dropFirst_nil h.ne_nil]
  cases dropFirst (pieces name) with
  | nil => simp [render]
  | cons p l =>
    rw [render_cons]
    split <;> simp

/-! ## The files -/

theorem mem_write_fst {files : Files} {file file' : Name} {method_name : Option Name} :
    file' ∈ (write files file method_name).map Prod.fst ↔
      file' ∈ files.map Prod.fst ∨ file' = file := by
  unfold write
  split
  · rename_i hthere
    rw [List.contains_iff_mem] at hthere
    exact ⟨Or.inl, fun h => h.elim id fun heq => heq ▸ hthere⟩
  · simp

theorem mem_write {files : Files} {p : Name × Option Name} (file : Name)
    (method_name : Option Name) (h : p ∈ files) : p ∈ write files file method_name := by
  unfold write
  split
  · exact h
  · exact List.mem_append_left _ h

theorem mem_write_self {files : Files} {file : Name} (method_name : Option Name)
    (h : file ∉ files.map Prod.fst) : (file, method_name) ∈ write files file method_name := by
  unfold write
  rw [if_neg (mt List.contains_iff_mem.mp h)]
  exact List.mem_append_right _ (List.mem_singleton_self _)

theorem mem_foldl_write {l : List (Name × Option Name)} (hnodup : (l.map Prod.fst).Nodup)
    {p : Name × Option Name} (hp : p ∈ l) {files : Files} (hnew : p.1 ∉ files.map Prod.fst) :
    p ∈ l.foldl (fun files q => write files q.1 q.2) files := by
  -- What is in the list once is never written over.
  have hkept : ∀ (l : List (Name × Option Name)) (files : Files), p ∈ files →
      p ∈ l.foldl (fun files q => write files q.1 q.2) files := by
    intro l
    induction l with
    | nil => exact fun _ h => h
    | cons q l ih => exact fun files h => ih _ (mem_write q.1 q.2 h)
  induction l generalizing files with
  | nil => cases hp
  | cons q l ih =>
    obtain ⟨hq, hl⟩ := List.nodup_cons.mp hnodup
    obtain rfl | hp := List.mem_cons.mp hp
    · exact hkept l _ (mem_write_self p.2 hnew)
    · refine ih hl hp fun hmem => ?_
      obtain hmem | heq := mem_write_fst.mp hmem
      · exact hnew hmem
      · exact hq (heq ▸ List.mem_map_of_mem hp)

/-! ### No two paths are one -/

section

variable {proj_path project_name u u' : Name}

theorem header_ne_client :
    src_path proj_path project_name ++ "/interface/".toList ++ u ++ ".h".toList ≠
      test_client_path proj_path ++ "/test_".toList ++ u' ++ "_client.cc".toList := by
  intro h
  have hlast := congrArg (fun file => file.reverse.head?) h
  simp at hlast

theorem header_ne_source :
    src_path proj_path project_name ++ "/interface/".toList ++ u ++ ".h".toList ≠
      src_path proj_path project_name ++ "/interface/".toList ++ u' ++ ".cc".toList := by
  intro h
  have hlast := congrArg (fun file => file.reverse.head?) h
  simp at hlast

theorem source_ne_client (hu : '/' ∉ u') :
    src_path proj_path project_name ++ "/interface/".toList ++ u ++ ".cc".toList ≠
      test_client_path proj_path ++ "/test_".toList ++ u' ++ "_client.cc".toList := by
  intro h
  -- The directory of the interfaces lies deeper than that of the clients.
  have hcount := congrArg (List.count '/') h
  simp [src_path, test_client_path, List.count_eq_zero.mpr hu] at hcount
  omega

theorem nodup_method_files (hu : '/' ∉ u) :
    (method_files (src_path proj_path project_name) (test_client_path proj_path) u).Nodup := by
  simp only [method_files, List.nodup_cons, List.mem_cons, List.not_mem_nil, or_false, not_or,
    not_false_eq_true, List.nodup_nil, and_true]
  exact ⟨⟨header_ne_source, header_ne_client⟩, source_ne_client hu⟩

theorem disjoint_method_files (hne : u ≠ u') (hu : '/' ∉ u) (hu' : '/' ∉ u') :
    List.Disjoint
      (method_files (src_path proj_path project_name) (test_client_path proj_path) u)
      (method_files (src_path proj_path project_name) (test_client_path proj_path) u') := by
  have hcancel (pre suf : Name) : pre ++ u ++ suf ≠ pre ++ u' ++ suf := fun h =>
    hne (List.append_cancel_left (List.append_cancel_right h))
  intro file h h'
  simp only [method_files, List.mem_cons, List.not_mem_nil, or_false] at h h'
  obtain rfl | rfl | rfl := h
  · obtain h' | h' | h' := h'
    · exact hcancel _ _ h'
    · exact header_ne_source h'
    · exact header_ne_client h'
  · obtain h' | h' | h' := h'
    · exact header_ne_source h'.symm
    · exact hcancel _ _ h'
    · exact source_ne_client hu' h'
  · obtain h' | h' | h' := h'
    · exact header_ne_client h'.symm
    · exact source_ne_client hu h'.symm
    · exact hcancel _ _ h'

end

/-- The files of a method, as the loop writes them. -/
def written (src_path test_client_path : Name) (each : Interface) : List (Name × Option Name) :=
  (method_files src_path test_client_path each.interface_name).map (·, some each.method_name)

theorem generate_eq (src_path test_client_path : Name) (interfaces : List Interface)
    (files : Files) :
    generate src_path test_client_path interfaces files =
      (interfaces.flatMap (written src_path test_client_path)).foldl
        (fun files q => write files q.1 q.2) (base_files src_path files) := by
  simp only [generate, written, List.foldl_flatMap, List.foldl_map]
  rfl

theorem nodup_written {names : List Name} (hids : ∀ name ∈ names, IsIdentifier name)
    (h : (names.map to_underline).Nodup) (proj_path project_name : Name) :
    (((interface_list names).flatMap
      (written (src_path proj_path project_name) (test_client_path proj_path))).map
        Prod.fst).Nodup := by
  have hfiles (each : Interface) :
      (written (src_path proj_path project_name) (test_client_path proj_path) each).map Prod.fst =
        method_files (src_path proj_path project_name) (test_client_path proj_path)
          each.interface_name := by
    simp [written, Function.comp_def]
  rw [List.map_flatMap, List.nodup_flatMap]
  unfold interface_list
  simp only [hfiles]
  constructor
  · intro each heach
    obtain ⟨name, hname, rfl⟩ := List.mem_map.mp heach
    exact nodup_method_files (slash_notMem (hids name hname))
  · rw [List.pairwise_map]
    refine (List.pairwise_map.mp h).imp_of_mem fun {name name'} hname hname' hne => ?_
    exact disjoint_method_files hne (slash_notMem (hids name hname))
      (slash_notMem (hids name' hname'))

theorem owns_of_nodup {names : List Name} (hids : ∀ name ∈ names, IsIdentifier name)
    (h : (names.map to_underline).Nodup) (proj_path project_name : Name) (files : Files)
    {name : Name} (hname : name ∈ names) {file : Name}
    (hfile : file ∈ method_files (src_path proj_path project_name) (test_client_path proj_path)
      (to_underline name)) :
    Owns proj_path project_name files (interface_list names) name file := by
  refine or_iff_not_imp_left.mpr fun hnew => ?_
  rw [generate_eq]
  refine mem_foldl_write (nodup_written hids h proj_path project_name) ?_ hnew
  exact List.mem_flatMap.mpr ⟨_, List.mem_map_of_mem hname, List.mem_map_of_mem hfile⟩

theorem base_files_new {src_path test_client_path file : Name}
    (h : file ∈ (base_files src_path []).map Prod.fst) :
    file ∈ method_files src_path test_client_path "interface".toList := by
  have hpath (suf : Name) : src_path ++ "/interface/".toList ++ "interface".toList ++ suf =
      src_path ++ ("/interface/interface".toList ++ suf) := by
    simp
  unfold method_files
  rw [hpath, hpath]
  obtain h | rfl := mem_write_fst.mp h
  · obtain h | rfl := mem_write_fst.mp h
    · cases h
    · exact List.mem_cons_self
  · exact List.mem_cons_of_mem _ List.mem_cons_self

/-- In a new project only the files of the base class are in the way of a method. -/
theorem Separate.own_new {names : List Name} (h : Separate names)
    (hids : ∀ name ∈ names, IsIdentifier name) (proj_path project_name : Name) {name : Name}
    (hname : name ∈ names) (hne : to_underline name ≠ "interface".toList) {file : Name}
    (hfile : file ∈ method_files (src_path proj_path project_name) (test_client_path proj_path)
      (to_underline name)) :
    (file, some name) ∈ generate (src_path proj_path project_name) (test_client_path proj_path)
      (interface_list names) [] := by
  refine (h.own proj_path project_name [] name hname file hfile).resolve_left fun hbase => ?_
  exact disjoint_method_files hne (slash_notMem (hids name hname)) (by decide +kernel) hfile
    (base_files_new hbase)

example : (src_path [] "order".toList ++ "/interface/interface.h".toList,
    some "Interface".toList) ∉ generate (src_path [] "order".toList) (test_client_path [])
      (interface_list ["Interface".toList]) [] := by
  decide +kernel

theorem classes_nodup {names : List Name} (h : (names.map to_underline).Nodup) :
    ((interface_list names).map Interface.interface_class_name).Nodup := by
  unfold interface_list
  rw [List.map_map]
  refine List.Pairwise.map _ ?_ (List.pairwise_map.mp h)
  intro name name' hne heq
  refine hne ?_
  unfold to_underline
  rw [List.append_cancel_right heq]

theorem nodup_iff {names : List Name} (h : ∀ name ∈ names, IsIdentifier name)
    (hsolid : ∀ name ∈ names, ¬ Vanishes name) :
    (names.map to_underline).Nodup ↔ names.Pairwise fun name name' => ¬ Clash name name' := by
  have hne : ∀ name ∈ names, dropFirst (pieces name) ≠ [] := fun name hname =>
    mt (dropFirst_nil (h name hname).ne_nil).mp (hsolid name hname)
  unfold List.Nodup
  rw [List.pairwise_map]
  refine List.Pairwise.iff_of_mem fun {name name'} hname hname' => not_congr ?_
  rw [to_underline_eq_iff (h name hname) (h name' hname')]
  exact clash_iff (hne name hname) (hne name' hname')

/-- The methods have files and classes of their own just when none of the names vanishes
and no two of them clash. -/
theorem separate_iff (names : List Name) (h : ∀ name ∈ names, IsIdentifier name) :
    Separate names ↔
      (∀ name ∈ names, ¬ Vanishes name) ∧
        names.Pairwise fun name name' => ¬ Clash name name' := by
  constructor
  · intro hseparate
    have hsolid : ∀ name ∈ names, ¬ Vanishes name := fun name hname hvanish =>
      hseparate.named name hname ((to_underline_nil (h name hname)).mpr hvanish)
    exact ⟨hsolid, (nodup_iff h hsolid).mp hseparate.files⟩
  · rintro ⟨hsolid, hpairwise⟩
    have hnodup := (nodup_iff h hsolid).mpr hpairwise
    refine ⟨fun name hname hnil => ?_, hnodup,
      fun proj_path project_name files name hname file hfile => ?_, classes_nodup hnodup⟩
    · exact hsolid name hname ((to_underline_nil (h name hname)).mp hnil)
    · exact owns_of_nodup h hnodup proj_path project_name files hname hfile

/-! ## Two services -/

instance : DecidablePred IsIdentifier
  | [] => isFalse id
  | _ :: _ => inferInstanceAs (Decidable (_ ∧ _))

def orders : List Name := ["MakeOrder".toList, "cancel_order".toList]

theorem separate_orders : Separate orders := by
  have hne : ∀ name ∈ orders, name ≠ [] := by decide +kernel
  have hsolid : ∀ name ∈ orders, dropFirst (pieces name) ≠ [] := by decide +kernel
  refine (separate_iff orders (by decide +kernel)).mpr
    ⟨fun name hname => ?_, List.pairwise_pair.mpr ?_⟩
  · exact mt (dropFirst_nil (hne name hname)).mpr (hsolid name hname)
  · rw [← clash_iff (by decide +kernel) (by decide +kernel)]
    decide +kernel

theorem one_file_for_two_methods :
    to_underline "makeOrder".toList = "ake_order".toList ∧
    to_underline "takeOrder".toList = "ake_order".toList ∧
    (∀ name ∈ ["makeOrder".toList, "takeOrder".toList], IsIdentifier name) ∧
    ["makeOrder".toList, "takeOrder".toList].Nodup ∧
    ¬ Separate ["makeOrder".toList, "takeOrder".toList] :=
  ⟨by decide +kernel, by decide +kernel, by decide +kernel, by decide +kernel,
    fun h => absurd h.files (by decide +kernel)⟩

/-- The underscore of one name is a capital letter of the other. -/
example : to_camel "get_user".toList = to_camel "GetUser".toList := by
  decide +kernel

end TinyRpc.Generator
