import TinyRpc.Generator
import TinyRpc.Lib.Find

/-!
# The header that the generator reads

`generate_framework_code` looks for the service and for its methods in the
header that `protoc` has written. It searches for a few words, and takes what
stands between them.
-/

namespace TinyRpc.Generator

open Lib.Find

/-! ## Strings -/

def str_find (s sub : Name) : Int :=
  match find sub s with
  | some i => i
  | none => -1

/-- Where an index of a slice points to. A negative one counts from the end. -/
def position (s : Name) (i : Int) : Nat := if i < 0 then (s.length + i).toNat else i.toNat

/-- `s[i:]` -/
def sliceFrom (s : Name) (i : Int) : Name := s.drop (position s i)

/-- `s[i:j]` -/
def slice (s : Name) (i j : Int) : Name := (s.take (position s j)).drop (position s i)

theorem le_str_find (s sub : Name) : -1 ≤ str_find s sub := by
  unfold str_find
  split <;> omega

theorem str_find_eq_neg {s sub : Name} : str_find s sub = -1 ↔ ¬ sub <:+: s := by
  rw [← find_eq_none]
  cases h : find sub s <;> simp [str_find, h]

theorem str_find_append {g sub z : Name} (hsub : Borderless sub) (hg : ¬ sub <:+: g) :
    str_find (g ++ (sub ++ z)) sub = g.length := by
  simp [str_find, find_append hsub hg]

theorem str_find_char {g z : Name} {c : Char} (hg : c ∉ g) :
    str_find (g ++ c :: z) [c] = g.length := by
  simp [str_find, find_char hg]

theorem str_find_append_cons {g s sub : Name} {c : Char} (hc : c ∉ sub) (hg : ¬ sub <:+: g)
    (hs : sub <:+: s) : str_find (g ++ c :: s) sub = str_find s sub + (g.length + 1 : Nat) := by
  cases h : find sub s with
  | none => exact absurd hs (find_eq_none.mp h)
  | some i => simp [str_find, find_append_cons hc hg, h]

@[simp]
theorem position_nat (s : Name) (n : Nat) : position s n = n :=
  if_neg (Int.not_lt.mpr (Int.natCast_nonneg n))

@[simp]
theorem sliceFrom_nat (s : Name) (n : Nat) : sliceFrom s n = s.drop n := by
  simp only [sliceFrom, position_nat]

@[simp]
theorem slice_nat (s : Name) (n m : Nat) : slice s n m = (s.take m).drop n := by
  simp only [slice, position_nat]

theorem sliceFrom_length_lt {s : Name} {i : Int} (hs : s ≠ []) (hi : 0 < i) :
    (sliceFrom s i).length < s.length := by
  obtain ⟨n, rfl⟩ := Int.eq_ofNat_of_zero_le (Int.le_of_lt hi)
  have hpos := List.length_pos_of_ne_nil hs
  rw [sliceFrom_nat, List.length_drop]
  omega

theorem sliceFrom_shift {g s : Name} {i : Int} (hi : 0 ≤ i) :
    sliceFrom (g ++ s) (i + g.length) = sliceFrom s i := by
  obtain ⟨n, rfl⟩ := Int.eq_ofNat_of_zero_le hi
  rw [← Int.natCast_add, sliceFrom_nat, sliceFrom_nat, Nat.add_comm, List.drop_length_add_append]

theorem slice_shift {g s : Name} {i j : Int} (hi : 0 ≤ i) (hj : 0 ≤ j) :
    slice (g ++ s) (i + g.length) (j + g.length) = slice s i j := by
  obtain ⟨n, rfl⟩ := Int.eq_ofNat_of_zero_le hi
  obtain ⟨m, rfl⟩ := Int.eq_ofNat_of_zero_le hj
  rw [← Int.natCast_add, ← Int.natCast_add, slice_nat, slice_nat, Nat.add_comm, Nat.add_comm m,
    List.take_length_add_append, List.drop_length_add_append]

/-! ## `generate_framework_code` -/

/-- The name of the service, and the text from there on. -/
def service (origin_text : Name) : Name × Name :=
  let start := str_find origin_text "virtual ~".toList
  let i1 := str_find (sliceFrom origin_text start) ['~']
  let i2 := str_find (sliceFrom origin_text start) ['(']
  (slice origin_text (start + i1 + 1) (start + i2), sliceFrom origin_text (start + i2))

def method_list (origin_text : Name) : List Name :=
  let i1 := str_find origin_text "virtual void".toList
  if _ : i1 = -1 then []
  else
    let i2 := str_find (sliceFrom origin_text i1) ");".toList
    slice origin_text i1 (i1 + i2 + 2) :: method_list (sliceFrom origin_text (i1 + i2 + 3))
termination_by origin_text.length
decreasing_by
  have hfound : str_find origin_text "virtual void".toList ≠ -1 := ‹¬ i1 = -1›
  have hne : origin_text ≠ [] := by
    rintro rfl
    exact hfound (by decide)
  have hi1 := le_str_find origin_text "virtual void".toList
  have hi2 := le_str_find (sliceFrom origin_text (str_find origin_text "virtual void".toList))
    ");".toList
  exact sliceFrom_length_lt hne (by omega)

structure RpcInterface extends Interface where
  request_type : Name
  response_type : Name

def request_type (l1 : Name) : Name :=
  let y := str_find l1 "request".toList
  replace [' '] [] (replace ['\n'] [] (replace "const ".toList [] (replace ['*'] []
    (slice l1 0 (y - 1)))))

def response_type (l2 : Name) : Name :=
  let y := str_find l2 "response".toList
  replace [' '] [] (replace ['\n'] [] (replace ['*'] [] (slice l2 0 (y - 1))))

/-- `PROTOBUF_NAMESPACE_ID` is a macro. -/
def expand (s : Name) : Name :=
  replace "PROTOBUF_NAMESPACE_ID".toList "google::protobuf".toList s

/-- What the generator reads in the text of a method. There is an error when the text has
not enough commas. -/
def rpc_interface (each : Name) : Option RpcInterface :=
  let tmp := expand each
  let i1 := str_find tmp "void".toList
  let tmp := sliceFrom tmp i1
  let i2 := str_find tmp ['(']
  let method_name := slice tmp 5 i2
  let l := tmp.splitOn ','
  l[1]?.bind fun l1 => l[2]?.map fun l2 =>
    { interface_name := to_underline method_name
      method_name
      interface_class_name := to_camel method_name ++ "Interface".toList
      request_type := request_type l1
      response_type := response_type l2 }

structure Framework where
  service_name : Name
  class_name : Name
  interface_list : List RpcInterface

/-- What the generator reads in the header. -/
def generate_framework_code (origin_text : Name) : Option Framework :=
  let (service_name, origin_text) := service origin_text
  ((method_list origin_text).mapM rpc_interface).map fun interface_list =>
    { service_name, class_name := to_camel service_name ++ "Impl".toList, interface_list }

/-! ## What `protoc` writes -/

/-- A character of a type. -/
def IsPath (c : Char) : Bool := IsWord c || c = ':'

structure Method where
  name : Name
  request_type : Name
  response_type : Name
  isWord : ∀ c ∈ name, IsWord c
  request : ∀ c ∈ request_type, IsPath c
  response : ∀ c ∈ response_type, IsPath c

/-- The three parameters are on lines of their own. -/
def margin : Name := "\n                      ".toList

def rpcController : Name := "::PROTOBUF_NAMESPACE_ID::RpcController* controller".toList

/-- A declaration without its last two characters. -/
def declaration (controller name request_type response_type : Name) : Name :=
  "virtual void".toList ++ ' ' :: (name ++ '(' :: (controller ++ ',' ::
    (margin ++ " const".toList ++ ' ' :: (request_type ++ '*' :: (" request".toList ++ ',' ::
      (margin ++ ' ' :: (response_type ++ '*' :: (" response".toList ++ ',' ::
        (margin ++ " ::google::protobuf::Closure* done".toList)))))))))

namespace Method

def body (m : Method) : Name :=
  declaration rpcController m.name m.request_type m.response_type

def text (m : Method) : Name := m.body ++ ");".toList

/-- `order.pb.h` -/
def makeOrder : Method where
  name := "makeOrder".toList
  request_type := "::makeOrderRequest".toList
  response_type := "::makeOrderResponse".toList
  isWord := List.all_eq_true.mp (by decide)
  request := List.all_eq_true.mp (by decide)
  response := List.all_eq_true.mp (by decide)

example : makeOrder.text =
    "virtual void makeOrder(::PROTOBUF_NAMESPACE_ID::RpcController* controller,\n".toList ++
    "                       const ::makeOrderRequest* request,\n".toList ++
    "                       ::makeOrderResponse* response,\n".toList ++
    "                       ::google::protobuf::Closure* done);".toList := by decide +kernel

end Method

/-- A line of the header. A declaration takes more than one. -/
inductive Line where
  | other (line : Name) (hservice : ¬ "virtual ~".toList <:+: line)
    (hmethod : ¬ "virtual void".toList <:+: line)
  | service (name : Name) (isWord : ∀ c ∈ name, IsWord c)
  | method (m : Method)

def Line.text : Line → Name
  | .other line _ _ => line
  | .service name _ => "  virtual ~".toList ++ (name ++ "();".toList)
  | .method m => "  ".toList ++ m.text

def header (lines : List Line) : Name := lines.flatMap fun line => line.text ++ ['\n']

def methods (lines : List Line) : List Method :=
  lines.filterMap fun
    | .method m => some m
    | .other .. | .service .. => none

/-- What is read of a method. A type is right unless it has the word in it that the
generator takes for the name of the parameter. -/
structure Reads (m : Method) (each : RpcInterface) : Prop where
  method_name : each.method_name = expand m.name
  interface_name : each.interface_name = to_underline (expand m.name)
  interface_class_name : each.interface_class_name = to_camel (expand m.name) ++ "Interface".toList
  request_type : each.request_type = expand m.request_type ↔
    ¬ "request".toList <:+: expand m.request_type
  response_type : each.response_type = expand m.response_type ↔
    ¬ "response".toList <:+: expand m.response_type

/-! ## Characters -/

theorem notMem {p : Char → Bool} {s : Name} {c : Char} (h : ∀ c ∈ s, p c) (hc : p c = false) :
    c ∉ s := by
  intro hin
  simp [h c hin] at hc

theorem not_within {sub s : Name} {c : Char} (hc : c ∈ sub) (h : c ∉ s) : ¬ sub <:+: s :=
  fun hin => h (hin.subset hc)

theorem isPath_expand {s : Name} (h : ∀ c ∈ s, IsPath c) : ∀ c ∈ expand s, IsPath c := by
  have hnew : ∀ c ∈ "google::protobuf".toList, IsPath c := List.all_eq_true.mp (by decide)
  intro c hc
  obtain hin | hin := mem_replace hc
  · exact h c hin
  · exact hnew c hin

theorem isPath_name (m : Method) : ∀ c ∈ m.name, IsPath c := by
  intro c hc
  simp [IsPath, m.isWord c hc]

theorem mem_declaration {controller name request response : Name} {c : Char} :
    c ∈ declaration controller name request response ↔
      c ∈ declaration controller [] [] [] ∨ c ∈ name ∨ c ∈ request ∨ c ∈ response := by
  unfold declaration
  generalize "virtual void".toList = start, " const".toList = const, margin = margin,
    " request".toList = request_name, " response".toList = response_name,
    " ::google::protobuf::Closure* done".toList = closing
  simp only [List.mem_append, List.mem_cons, List.not_mem_nil]
  grind only

theorem notMem_body (m : Method) {c : Char} (hpath : IsPath c = false)
    (hc : c ∉ declaration rpcController [] [] []) : c ∉ m.body := by
  unfold Method.body
  rw [mem_declaration]
  rintro (h | h | h | h)
  · exact hc h
  · exact notMem (isPath_name m) hpath h
  · exact notMem m.request hpath h
  · exact notMem m.response hpath h

/-! ## One method -/

theorem expand_append_cons {s z : Name} {c : Char} (hc : c ∉ "PROTOBUF_NAMESPACE_ID".toList) :
    expand (s ++ c :: z) = expand s ++ c :: expand z :=
  replace_append_cons (by decide) hc

theorem expand_parts (a b c d e f g h i j : Name) :
    expand (a ++ ' ' :: (b ++ '(' :: (c ++ ',' :: (d ++ ' ' :: (e ++ '*' :: (f ++ ',' ::
      (g ++ ' ' :: (h ++ '*' :: (i ++ ',' :: j))))))))) =
    expand a ++ ' ' :: (expand b ++ '(' :: (expand c ++ ',' :: (expand d ++ ' ' :: (expand e ++
      '*' :: (expand f ++ ',' :: (expand g ++ ' ' :: (expand h ++ '*' :: (expand i ++ ',' ::
        expand j)))))))) := by
  have hblank := fun s z => expand_append_cons (s := s) (c := ' ') (z := z) (by decide)
  have hparen := fun s z => expand_append_cons (s := s) (c := '(') (z := z) (by decide)
  have hcomma := fun s z => expand_append_cons (s := s) (c := ',') (z := z) (by decide)
  have hstar := fun s z => expand_append_cons (s := s) (c := '*') (z := z) (by decide)
  rw [hblank, hparen, hcomma, hblank, hstar, hcomma, hblank, hstar, hcomma]

theorem expand_declaration (m : Method) : expand m.body =
    declaration (expand rpcController) (expand m.name) (expand m.request_type)
      (expand m.response_type) := by
  have hvirtual : expand "virtual void".toList = "virtual void".toList := by decide +kernel
  have hconst : expand (margin ++ " const".toList) = margin ++ " const".toList := by decide +kernel
  have hrequest : expand " request".toList = " request".toList := by decide +kernel
  have hmargin : expand margin = margin := by decide +kernel
  have hresponse : expand " response".toList = " response".toList := by decide +kernel
  have hclosing : expand (margin ++ " ::google::protobuf::Closure* done".toList) =
      margin ++ " ::google::protobuf::Closure* done".toList := by decide +kernel
  unfold Method.body declaration
  rw [expand_parts, hvirtual, hconst, hrequest, hmargin, hresponse, hclosing]

theorem expand_text (m : Method) : expand m.text =
    declaration (expand rpcController) (expand m.name) (expand m.request_type)
      (expand m.response_type) ++ ");".toList := by
  rw [← expand_declaration]
  exact expand_append_cons (z := [';']) (by decide)

theorem slice_before {word g z : Name} {c : Char} (hword : Borderless word)
    (hg : ¬ word <:+: g ++ [c]) :
    slice ((g ++ [c]) ++ (word ++ z)) 0 (str_find ((g ++ [c]) ++ (word ++ z)) word - 1) = g := by
  have hpos : ((g ++ [c]).length : Int) - 1 = g.length := by simp
  rw [str_find_append hword hg, hpos, ← Int.natCast_zero, slice_nat]
  simp

theorem cut_iff (clean : Name → Name) {word before type : Name} (hword : Borderless word)
    (hblank : ' ' ∉ word) (hstar : '*' ∉ word) (hbefore : ¬ word <:+: before)
    (hclean : ∀ t star, (∀ c ∈ t, IsPath c) → (∀ c ∈ star, c = '*') →
      clean (before ++ ' ' :: (t ++ star)) = t)
    (hnone : ¬ word <+: clean before) (htype : ∀ c ∈ type, IsPath c) {l : Name}
    (hl : l = before ++ ' ' :: (type ++ '*' :: ' ' :: word)) :
    clean (slice l 0 (str_find l word - 1)) = type ↔ ¬ word <:+: type := by
  subst hl
  have hfree : ∀ s, ¬ word <:+: s → ¬ word <:+: before ++ ' ' :: s := by
    intro s hs
    rw [infix_append_cons hblank, not_or]
    exact ⟨hbefore, hs⟩
  have hne : word ≠ [] := by
    rintro rfl
    exact hbefore List.nil_infix
  by_cases hin : word <:+: type
  · refine iff_of_false ?_ (not_not_intro hin)
    obtain ⟨first, behind, rfl, hfirst⟩ := exists_first hne hin
    obtain rfl | ⟨first, c, rfl⟩ := List.eq_nil_or_concat' first
    · have hline : before ++ ' ' :: (([] ++ (word ++ behind)) ++ '*' :: ' ' :: word) =
          (before ++ [' ']) ++ (word ++ (behind ++ '*' :: ' ' :: word)) := by
        simp
      rw [hline, slice_before hword (hfree [] hfirst)]
      rintro h
      exact hnone (h ▸ List.prefix_append word behind)
    · have hline : before ++ ' ' :: (((first ++ [c]) ++ (word ++ behind)) ++ '*' :: ' ' :: word) =
          ((before ++ ' ' :: (first ++ [])) ++ [c]) ++
            (word ++ (behind ++ '*' :: ' ' :: word)) := by
        simp
      have hpath : ∀ c ∈ first, IsPath c := fun c hc => htype c (by simp [hc])
      rw [hline, slice_before hword (by simpa using hfree _ hfirst),
        hclean _ _ hpath (by simp)]
      intro h
      simpa using congrArg List.length h
  · refine iff_of_true ?_ hin
    have hline : before ++ ' ' :: (type ++ '*' :: ' ' :: word) =
        ((before ++ ' ' :: (type ++ ['*'])) ++ [' ']) ++ (word ++ []) := by
      simp
    have hrest : ¬ word <:+: type ++ '*' :: ([] ++ ' ' :: []) := by
      rw [infix_append_cons hstar, infix_append_cons hblank]
      simp [hin, hne]
    rw [hline, slice_before hword (by simpa using hfree _ hrest), hclean _ _ htype (by simp)]

theorem clean_type {before type : Name} (hbefore : before.all (fun c => c = ' ' ∨ c = '\n'))
    (htype : ∀ c ∈ type, IsPath c) :
    replace [' '] [] (replace ['\n'] [] (before ++ type)) = type := by
  have hkeep : ∀ c ∈ type, c ≠ ' ' ∧ c ≠ '\n' := by
    rintro c hc
    constructor <;> rintro rfl <;> exact absurd (htype _ hc) (by decide)
  have hdrop : before.filter (fun c => c ≠ ' ' ∧ c ≠ '\n') = [] := by
    rw [List.filter_eq_nil_iff]
    intro c hc
    obtain rfl | rfl := of_decide_eq_true (List.all_eq_true.mp hbefore c hc) <;> simp
  rw [replace_char, replace_char, List.filter_filter]
  simp only [ne_eq, Bool.decide_and, decide_not] at hdrop
  simp only [ne_eq, decide_not, List.filter_append, hdrop, List.nil_append]
  rw [List.filter_eq_self]
  simpa using hkeep

theorem drop_star {s star : Name} (hs : '*' ∉ s) (hstar : ∀ c ∈ star, c = '*') :
    replace ['*'] [] (s ++ star) = s := by
  have hkeep : s.filter (· ≠ '*') = s := by
    rw [List.filter_eq_self]
    intro c hc
    simpa using ne_of_mem_of_not_mem hc hs
  have hdrop : star.filter (· ≠ '*') = [] := by
    rw [List.filter_eq_nil_iff]
    simpa using hstar
  rw [replace_char, List.filter_append, hkeep, hdrop, List.append_nil]

theorem response_type_iff {type : Name} (htype : ∀ c ∈ type, IsPath c) :
    response_type (margin ++ ' ' :: (type ++ '*' :: " response".toList)) = type ↔
      ¬ "response".toList <:+: type := by
  refine cut_iff (fun l => replace [' '] [] (replace ['\n'] [] (replace ['*'] [] l)))
    (by decide) (by decide) (by decide) (by decide) (fun t star ht hstar => ?_)
    (by decide +kernel) htype rfl
  have hblank : (margin ++ [' ']).all (fun c => c = ' ' ∨ c = '\n') := by decide
  have hnot : '*' ∉ (margin ++ [' ']) ++ t :=
    List.not_mem_append (by decide) (notMem ht (by decide))
  have hline : margin ++ ' ' :: (t ++ star) = ((margin ++ [' ']) ++ t) ++ star := by simp
  rw [hline, drop_star hnot hstar, clean_type hblank ht]

theorem request_type_iff {type : Name} (htype : ∀ c ∈ type, IsPath c) :
    request_type (margin ++ " const".toList ++ ' ' :: (type ++ '*' :: " request".toList)) = type ↔
      ¬ "request".toList <:+: type := by
  refine cut_iff (fun l => replace [' '] [] (replace ['\n'] []
    (replace "const ".toList [] (replace ['*'] [] l)))) (by decide) (by decide) (by decide)
    (by decide) (fun t star ht hstar => ?_) (by decide +kernel) htype rfl
  have hblank : (margin ++ [' ']).all (fun c => c = ' ' ∨ c = '\n') := by decide
  have hnot : '*' ∉ (margin ++ [' ']) ++ ("const ".toList ++ t) :=
    List.not_mem_append (by decide) (List.not_mem_append (by decide) (notMem ht (by decide)))
  have hline : margin ++ " const".toList ++ ' ' :: (t ++ star) =
      ((margin ++ [' ']) ++ ("const ".toList ++ t)) ++ star := by simp
  have hconst : ¬ "const ".toList <:+: t :=
    not_within (c := ' ') (by decide) (notMem ht (by decide))
  rw [hline, drop_star hnot hstar, replace_append (by decide) (by decide), replace_eq_self hconst]
  exact clean_type hblank ht

example : request_type (margin ++ " const ::make_request* request".toList) = "::make".toList := by
  decide +kernel

theorem splitOn_cons {s z : Name} (hs : ',' ∉ s) :
    (s ++ ',' :: z).splitOn ',' = s :: z.splitOn ',' := by
  rw [List.splitOn_eq_splitOnP, List.splitOn_eq_splitOnP]
  refine List.splitOnP_append_cons_of_forall_mem (fun c hc => ?_) ',' (by simp) z
  simpa using ne_of_mem_of_not_mem hc hs

theorem rpc_interface_eq {each name controller l1 l2 l3 : Name}
    (heach : expand each = "virtual ".toList ++ ("void".toList ++
      (' ' :: (name ++ '(' :: controller) ++ ',' :: (l1 ++ ',' :: (l2 ++ ',' :: l3)))))
    (hname : ∀ c ∈ name, IsPath c) (hcontroller : ',' ∉ controller) (hl1 : ',' ∉ l1)
    (hl2 : ',' ∉ l2) :
    rpc_interface each = some {
      interface_name := to_underline name
      method_name := name
      interface_class_name := to_camel name ++ "Interface".toList
      request_type := request_type l1
      response_type := response_type l2 } := by
  have hvoid : str_find (expand each) "void".toList = (8 : Nat) := by
    rw [heach]
    exact str_find_append (by decide) (by decide)
  have htmp : sliceFrom (expand each) (8 : Nat) = ("void ".toList ++ name) ++ '(' ::
      (controller ++ ',' :: (l1 ++ ',' :: (l2 ++ ',' :: l3))) := by
    rw [heach, sliceFrom_nat]
    simp
  have hparen : str_find (sliceFrom (expand each) (8 : Nat)) ['('] =
      ("void ".toList ++ name).length := by
    rw [htmp, str_find_char (List.not_mem_append (by decide) (notMem hname (by decide)))]
  have hmethod : slice (sliceFrom (expand each) (8 : Nat)) 5 ("void ".toList ++ name).length =
      name := by
    rw [htmp]
    refine (slice_nat _ 5 _).trans ?_
    rw [List.take_left]
    rfl
  -- The first part has the name of the method, too.
  have hsplit : (sliceFrom (expand each) (8 : Nat)).splitOn ',' =
      ("void ".toList ++ name ++ '(' :: controller) :: l1 :: l2 :: l3.splitOn ',' := by
    have hline : sliceFrom (expand each) (8 : Nat) = ("void ".toList ++ name ++ '(' :: controller) ++
        ',' :: (l1 ++ ',' :: (l2 ++ ',' :: l3)) := by
      rw [htmp, List.append_assoc _ ('(' :: controller), List.cons_append]
    have hfirst : ',' ∉ "void ".toList ++ name ++ '(' :: controller :=
      List.not_mem_append (List.not_mem_append (by decide) (notMem hname (by decide)))
        (List.not_mem_cons_of_ne_of_not_mem (by decide) hcontroller)
    rw [hline, splitOn_cons hfirst, splitOn_cons hl1, splitOn_cons hl2]
  unfold rpc_interface
  simp only [hvoid, hparen, hmethod, hsplit]
  rfl

theorem declaration_eq (controller name request response : Name) :
    declaration controller name request response ++ ");".toList =
      "virtual ".toList ++ ("void".toList ++ (' ' :: (name ++ '(' :: controller) ++ ',' ::
        ((margin ++ " const".toList ++ ' ' :: (request ++ '*' :: " request".toList)) ++ ',' ::
          ((margin ++ ' ' :: (response ++ '*' :: " response".toList)) ++ ',' ::
            (margin ++ " ::google::protobuf::Closure* done".toList ++ ");".toList))))) := by
  have hvirtual : "virtual void".toList = "virtual ".toList ++ "void".toList := by decide
  unfold declaration
  rw [hvirtual]
  generalize "virtual ".toList = virtual, "void".toList = void, " const".toList = const,
    " request".toList = request_name, " response".toList = response_name,
    margin ++ " ::google::protobuf::Closure* done".toList = closing, ");".toList = behind
  simp only [List.append_assoc, List.cons_append]

theorem notMem_parameter {before type behind : Name} (hbefore : ',' ∉ before)
    (htype : ∀ c ∈ type, IsPath c) (hbehind : ',' ∉ behind) :
    ',' ∉ before ++ ' ' :: (type ++ '*' :: behind) := by
  have htype' := notMem htype (c := ',') (by decide)
  simp [hbefore, htype', hbehind]

theorem rpc_interface_text (m : Method) : ∃ each, rpc_interface m.text = some each ∧
    Reads m each := by
  have hrequest := isPath_expand m.request
  have hresponse := isPath_expand m.response
  have hread := rpc_interface_eq ((expand_text m).trans (declaration_eq _ _ _ _))
    (isPath_expand (isPath_name m)) (by decide +kernel)
    (notMem_parameter (by decide) hrequest (by decide))
    (notMem_parameter (by decide) hresponse (by decide))
  exact ⟨_, hread, rfl, rfl, rfl, request_type_iff hrequest, response_type_iff hresponse⟩

/-! ## The whole header -/

theorem header_cons (line : Line) (lines : List Line) :
    header (line :: lines) = line.text ++ '\n' :: header lines := by
  simp [header]

theorem header_append (lines behind : List Line) :
    header (lines ++ behind) = header lines ++ header behind :=
  List.flatMap_append

theorem notMem_text (m : Method) {c : Char} (hpath : IsPath c = false)
    (hc : c ∉ declaration rpcController [] [] []) (hend : c ∉ ");".toList) : c ∉ m.text :=
  List.not_mem_append (notMem_body m hpath hc) hend

theorem no_destructor {before : List Line} (h : ∀ name isWord, Line.service name isWord ∉ before) :
    ¬ "virtual ~".toList <:+: header before ++ "  ".toList := by
  induction before with
  | nil => decide
  | cons line before ih =>
    simp only [List.mem_cons, not_or] at h
    rw [header_cons, List.append_assoc, List.cons_append, infix_append_cons (by decide), not_or]
    refine ⟨?_, ih fun name isWord => (h name isWord).2⟩
    cases line with
    | other line hservice hmethod => exact hservice
    | service name isWord => exact absurd rfl (h name isWord).1
    | method m =>
      refine not_within (c := '~') (by decide) ?_
      exact List.not_mem_append (by decide)
        (notMem_text m (by decide) (by decide +kernel) (by decide))

theorem service_eq {s : Name} {start i1 i2 : Int} (h : str_find s "virtual ~".toList = start)
    (h1 : str_find (sliceFrom s start) ['~'] = i1) (h2 : str_find (sliceFrom s start) ['('] = i2) :
    service s = (slice s (start + i1 + 1) (start + i2), sliceFrom s (start + i2)) := by
  subst h h1 h2
  rfl

theorem service_read {before behind name : Name}
    (hbefore : ¬ "virtual ~".toList <:+: before ++ "  ".toList) (hname : ∀ c ∈ name, IsWord c) :
    service (before ++ ("  virtual ~".toList ++ (name ++ '(' :: behind))) =
      (name, '(' :: behind) := by
  have hline : before ++ ("  virtual ~".toList ++ (name ++ '(' :: behind)) =
      (before ++ "  ".toList) ++ ("virtual ~".toList ++ (name ++ '(' :: behind)) := by
    rw [List.append_assoc]
    rfl
  rw [hline]
  generalize before ++ "  ".toList = g at hbefore
  have hstart : str_find (g ++ ("virtual ~".toList ++ (name ++ '(' :: behind)))
      "virtual ~".toList = g.length :=
    str_find_append (by decide) hbefore
  have htilde : str_find ("virtual ~".toList ++ (name ++ '(' :: behind)) ['~'] = 8 :=
    str_find_char (g := "virtual ".toList) (by decide)
  generalize htext : "virtual ~".toList ++ (name ++ '(' :: behind) = text at *
  rw [← List.append_assoc] at htext
  have hparen : str_find text ['('] = ("virtual ~".toList ++ name).length := by
    rw [← htext]
    exact str_find_char (List.not_mem_append (by decide) (notMem hname (by decide)))
  have hhere : sliceFrom (g ++ text) g.length = text := by
    rw [sliceFrom_nat, List.drop_left]
  have hbetween : slice text (9 : Nat) ("virtual ~".toList ++ name).length = name := by
    rw [slice_nat, ← htext, List.take_left]
    rfl
  have hrest : sliceFrom text ("virtual ~".toList ++ name).length = '(' :: behind := by
    rw [sliceFrom_nat, ← htext, List.drop_left]
  rw [service_eq hstart ((congrArg (str_find · ['~']) hhere).trans htilde)
    ((congrArg (str_find · ['(']) hhere).trans hparen)]
  rw [Int.add_assoc, Int.add_comm g.length, Int.add_comm g.length, sliceFrom_shift (by omega),
    slice_shift (by decide) (by omega), hrest]
  exact congrArg (·, _) hbetween

theorem method_list_none {s : Name} (h : ¬ "virtual void".toList <:+: s) : method_list s = [] := by
  rw [method_list, dif_pos (str_find_eq_neg.mpr h)]

theorem method_list_some {s : Name} {i1 i2 : Int} (h1 : str_find s "virtual void".toList = i1)
    (hne : i1 ≠ -1) (h2 : str_find (sliceFrom s i1) ");".toList = i2) :
    method_list s = slice s i1 (i1 + i2 + 2) :: method_list (sliceFrom s (i1 + i2 + 3)) := by
  subst h1 h2
  rw [method_list, dif_neg hne]

theorem method_list_skip {line behind : Name} (hline : ¬ "virtual void".toList <:+: line) :
    method_list (line ++ '\n' :: behind) = method_list behind := by
  by_cases hin : "virtual void".toList <:+: behind
  · have hi1 := le_str_find behind "virtual void".toList
    have hi2 := le_str_find (sliceFrom behind (str_find behind "virtual void".toList)) ");".toList
    have hne := mt str_find_eq_neg.mp (not_not_intro hin)
    have hfirst := str_find_append_cons (c := '\n') (by decide) hline hin
    have hsplit : line ++ '\n' :: behind = (line ++ ['\n']) ++ behind := by simp
    have hlength : ((line.length + 1 : Nat) : Int) = (line ++ ['\n']).length := by simp
    rw [hlength, hsplit] at hfirst
    rw [hsplit]
    generalize line ++ ['\n'] = g at hfirst
    have hsame := sliceFrom_shift (g := g) (s := behind)
      (i := str_find behind "virtual void".toList) (by omega)
    rw [method_list_some hfirst (by omega) (congrArg (str_find · ");".toList) hsame),
      method_list_some (s := behind) rfl hne rfl]
    generalize str_find behind "virtual void".toList = i1 at *
    generalize str_find (sliceFrom behind i1) ");".toList = i2 at *
    have hend : ∀ n, i1 + g.length + i2 + n = i1 + i2 + n + g.length := by omega
    rw [hend, hend, slice_shift (by omega) (by omega), sliceFrom_shift (by omega)]
  · rw [method_list_none hin, method_list_none]
    rw [infix_append_cons (by decide), not_or]
    exact ⟨hline, hin⟩

theorem method_list_text (m : Method) (behind : Name) :
    method_list ("  ".toList ++ m.text ++ '\n' :: behind) = m.text :: method_list behind := by
  obtain ⟨rest, hrest⟩ : ∃ rest, m.body = "virtual void".toList ++ rest := ⟨_, rfl⟩
  have hbody : ¬ ");".toList <:+: m.body :=
    not_within (c := ')') (by decide) (notMem_body m (by decide) (by decide +kernel))
  have hlength : m.text.length = m.body.length + 2 := List.length_append
  have hend : str_find (m.text ++ '\n' :: behind) ");".toList = m.body.length := by
    unfold Method.text
    rw [List.append_assoc]
    exact str_find_append (by decide) hbody
  have hstart : str_find ("  ".toList ++ (m.text ++ '\n' :: behind)) "virtual void".toList =
      "  ".toList.length := by
    unfold Method.text
    rw [hrest, List.append_assoc, List.append_assoc]
    exact str_find_append (by decide) (by decide)
  rw [List.append_assoc]
  generalize "  ".toList = g at hstart
  have hhere : sliceFrom (g ++ (m.text ++ '\n' :: behind)) g.length = m.text ++ '\n' :: behind := by
    rw [sliceFrom_nat, List.drop_left]
  have htext : slice (g ++ (m.text ++ '\n' :: behind)) ((0 : Nat) + g.length)
      (m.text.length + g.length) = m.text := by
    rw [slice_shift (by omega) (by omega), slice_nat, List.take_left, List.drop_zero]
  have hbehind : sliceFrom (g ++ (m.text ++ '\n' :: behind))
      ((m.text.length + 1 : Nat) + g.length) = behind := by
    rw [sliceFrom_shift (by omega), sliceFrom_nat, List.drop_length_add_append]
    rfl
  have hstop : (g.length + m.body.length + 2 : Int) = m.text.length + g.length := by omega
  have hnext : (g.length + m.body.length + 3 : Int) = (m.text.length + 1 : Nat) + g.length := by
    omega
  rw [method_list_some hstart (by omega) ((congrArg (str_find · ");".toList) hhere).trans hend),
    hstop, hnext, hbehind]
  rw [Int.natCast_zero, Int.zero_add] at htext
  rw [htext]

theorem method_list_header (lines : List Line) :
    method_list (header lines) = (methods lines).map Method.text := by
  induction lines with
  | nil => exact method_list_none (by decide)
  | cons line lines ih =>
    rw [header_cons]
    cases line with
    | other line hservice hmethod => exact (method_list_skip hmethod).trans ih
    | service name isWord =>
      refine (method_list_skip ?_).trans ih
      have hline : Line.text (.service name isWord) =
          "  virtual ".toList ++ '~' :: (name ++ '(' :: ");".toList) := rfl
      have hname : ¬ "virtual void".toList <:+: name :=
        not_within (c := ' ') (by decide) (notMem isWord (by decide))
      rw [hline, infix_append_cons (by decide), infix_append_cons (by decide), not_or, not_or]
      exact ⟨by decide, hname, by decide⟩
    | method m => exact (method_list_text m _).trans (congrArg (m.text :: ·) ih)

theorem interfaces_read (ms : List Method) : ∃ interface_list,
    (ms.map Method.text).mapM rpc_interface = some interface_list ∧
      List.Forall₂ Reads ms interface_list := by
  induction ms with
  | nil => exact ⟨[], rfl, .nil⟩
  | cons m ms ih =>
    obtain ⟨interface_list, hlist, hreads⟩ := ih
    obtain ⟨each, heach, hread⟩ := rpc_interface_text m
    refine ⟨each :: interface_list, ?_, .cons hread hreads⟩
    simp [List.mapM_cons, heach, hlist]

/-- Of a header the generator reads the first service, with the methods of this and of all
services behind it. -/
theorem header_read (before behind : List Line) (name : Name) (isWord : ∀ c ∈ name, IsWord c)
    (hbefore : ∀ name isWord, Line.service name isWord ∉ before) :
    ∃ interface_list,
      generate_framework_code (header (before ++ .service name isWord :: behind)) = some {
        service_name := name
        class_name := to_camel name ++ "Impl".toList
        interface_list } ∧
      List.Forall₂ Reads (methods behind) interface_list := by
  obtain ⟨interface_list, hlist, hreads⟩ := interfaces_read (methods behind)
  refine ⟨interface_list, ?_, hreads⟩
  have hservice : service (header (before ++ .service name isWord :: behind)) =
      (name, '(' :: (");".toList ++ '\n' :: header behind)) := by
    rw [header_append, header_cons]
    have hline : Line.text (.service name isWord) ++ '\n' :: header behind =
        "  virtual ~".toList ++ (name ++ '(' :: (");".toList ++ '\n' :: header behind)) := by
      unfold Line.text
      rw [List.append_assoc, List.append_assoc]
      rfl
    rw [hline]
    exact service_read (no_destructor hbefore) isWord
  have hnone : ¬ "virtual void".toList <:+: "();".toList := by decide
  have hmethods : method_list ('(' :: (");".toList ++ '\n' :: header behind)) =
      (methods behind).map Method.text :=
    (method_list_skip hnone).trans (method_list_header behind)
  unfold generate_framework_code
  rw [hservice]
  simp only [hmethods, hlist]
  rfl

theorem isWord_order : ∀ c ∈ "Order".toList, IsWord c := List.all_eq_true.mp (by decide)

theorem header_read_order : ∃ each,
    generate_framework_code (header [.other "class Order_Stub;".toList (by decide) (by decide),
      .service "Order".toList isWord_order, .method Method.makeOrder]) = some {
        service_name := "Order".toList
        class_name := "OrderImpl".toList
        interface_list := [each] } ∧
      each.method_name = "makeOrder".toList ∧ each.request_type = "::makeOrderRequest".toList := by
  obtain ⟨interface_list, hread, hreads⟩ := header_read
    [.other "class Order_Stub;".toList (by decide) (by decide)] [.method Method.makeOrder]
    "Order".toList isWord_order (by simp)
  obtain _ | ⟨hfirst, hrest⟩ := hreads
  obtain _ | _ := hrest
  have hname : expand Method.makeOrder.name = "makeOrder".toList := by decide +kernel
  have htype : expand Method.makeOrder.request_type = "::makeOrderRequest".toList := by
    decide +kernel
  refine ⟨_, hread, hfirst.method_name.trans hname, ?_⟩
  rw [← htype]
  exact hfirst.request_type.mpr (by decide +kernel)

end TinyRpc.Generator
