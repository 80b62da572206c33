import KernelIR.Drawing
import KernelIR.Proofs.Number.Decimal
import Mathlib.Data.List.Chain
import Mathlib.Data.Option.Basic
import Mathlib.Tactic.SplitIfs

namespace KernelIR

section Split

variable {α : Type} [DecidableEq α] {x : α} {l p q : List α} {ls : List (List α)}

/-- The lines of a text put together from parts are those of the parts. -/
theorem splitOn_intercalate_eq (h : ls ≠ []) :
    ([x].intercalate ls).splitOn x = ls.flatMap (List.splitOn x) := by
  induction ls with
  | nil => exact absurd rfl h
  | cons l ls ih =>
    cases ls with
    | nil => simp
    | cons l' ls =>
      rw [List.intercalate_cons_cons, List.append_assoc, List.singleton_append,
        List.splitOn_append_cons_self, ih (List.cons_ne_nil _ _), List.flatMap_cons,
        List.flatMap_cons, List.flatMap_cons]

omit [DecidableEq α] in
theorem infix_intercalate (h : l ∈ ls) : l <:+: [x].intercalate ls := by
  induction ls with
  | nil => exact absurd h List.not_mem_nil
  | cons l' ls ih =>
    cases ls with
    | nil =>
      rw [List.mem_singleton.mp h]
      simp
    | cons l'' ls =>
      rw [List.intercalate_cons_cons]
      rcases List.mem_cons.mp h with rfl | h
      · rw [List.append_assoc]
        exact (List.prefix_append l _).isInfix
      · exact (ih h).trans (List.suffix_append _ _).isInfix

theorem infix_of_mem_splitOn (h : l ∈ p.splitOn x) : l <:+: p := by
  have hl := infix_intercalate (x := x) h
  rwa [List.intercalate_splitOn] at hl

/-- The first line goes on with what is put in front of a text. -/
theorem exists_splitOn_append (h : x ∉ p) :
    ∃ l ls, (p ++ q).splitOn x = (p ++ l) :: ls ∧ q.splitOn x = l :: ls := by
  induction p with
  | nil =>
    cases hq : q.splitOn x with
    | nil => exact absurd hq (List.splitOn_ne_nil x q)
    | cons l ls => exact ⟨l, ls, hq, rfl⟩
  | cons a p ih =>
    rw [List.mem_cons, not_or] at h
    obtain ⟨l, ls, happend, hq⟩ := ih h.2
    refine ⟨l, ls, ?_, hq⟩
    rw [List.splitOn] at happend ⊢
    rw [List.cons_append, List.splitOnP_cons_eq_if_modifyHead, happend]
    simp [Ne.symm h.1]

end Split

namespace Number

theorem newline_not_mem_toDigits (b n : Nat) (hb : 1 < b) : '\n' ∉ Nat.toDigits b n := by
  induction n using Nat.strongRecOn with
  | _ n ih =>
    have hne : ∀ d, '\n' ≠ Nat.digitChar d := fun d => (Nat.digitChar_ne '\n' (by decide)).symm
    rw [Nat.toDigits_eq_if hb]
    split
    · simp [hne]
    · have hlt : n / b < n := Nat.div_lt_self (by omega) hb
      simp [ih _ hlt, hne]

end Number

theorem Text.newline_not_mem_quote (s : String) : '\n' ∉ (Text.quote s).toList := by
  have hhex : ∀ w n, '\n' ∉ (Text.hex w n).toList := by
    intro w n
    simp [Text.hex, Number.newline_not_mem_toDigits 16 n (by decide)]
  have hchar : ∀ c, '\n' ∉ (Text.quoteChar c).toList := by
    intro c
    unfold Text.quoteChar
    split
    all_goals try decide
    · have hten : ¬c.toNat = 10 := by assumption
      have hc : '\n' ≠ c := fun he => hten (congrArg Char.toNat he.symm)
      split_ifs
      · simp [hhex]
      · simpa using hc
      · simp [hhex]
      · simp [hhex]
  simp [Text.quote, String.toList_append, String.toList_join, hchar]

namespace Drawing

/-- The lines of a text. -/
def lines (s : String) : List (List Char) := s.toList.splitOn '\n'

/-- Reads the name of a node at the beginning of a text: the number in it, and what follows. -/
def readNode? (cs : List Char) : Option (BlockId × List Char) :=
  (cs.dropPrefix? "bb_".toList).bind fun rest =>
    (Number.readPlainDigits (rest.takeWhile Char.isDigit)).map fun n =>
      (n, rest.dropWhile Char.isDigit)

/-- The block that a line is the beginning of the node of. -/
def nodeOf? (line : List Char) : Option BlockId :=
  ((line.dropPrefix? "    ".toList).bind readNode?).bind fun r =>
    (r.2.dropPrefix? " [ label = < ".toList).map fun _ => r.1

/-- The two blocks that a line is an edge between. -/
def edgeOf? (line : List Char) : Option (BlockId × BlockId) :=
  ((line.dropPrefix? "    ".toList).bind readNode?).bind fun r =>
    ((r.2.dropPrefix? " -> ".toList).bind readNode?).map fun t => (r.1, t.1)

/-- The blocks that a drawing has nodes of, by its lines. -/
def nodeLines (text : String) : List BlockId := (lines text).filterMap nodeOf?

/-- The edges of a drawing, by its lines. -/
def edgeLines (text : String) : List (BlockId × BlockId) := (lines text).filterMap edgeOf?

theorem dropPrefix?_iff {l p s : List Char} : l.dropPrefix? p = some s ↔ l = p ++ s := by
  rw [List.dropPrefix?_eq_some_iff]
  constructor
  · rintro ⟨p', rfl, hp⟩
    rw [eq_of_beq hp]
  · rintro rfl
    exact ⟨p, rfl, beq_self_eq_true p⟩

theorem dropPrefix?_append (p s : List Char) : (p ++ s).dropPrefix? p = some s :=
  dropPrefix?_iff.mpr rfl

/-- A name is read to its end. -/
theorem readNode?_nodeName (n : BlockId) {c : Char} {rest : List Char} (hc : c.isDigit = false) :
    readNode? ((nodeName n).toList ++ c :: rest) = some (n, c :: rest) := by
  have hdigits : ∀ d ∈ Nat.toDigits 10 n, d.isDigit = true := fun d hd =>
    Nat.isDigit_of_mem_toDigits (by decide) (by decide) hd
  rw [readNode?, nodeName, String.toList_append, List.append_assoc, dropPrefix?_append,
    Option.bind_some, Number.toList_decimal, List.takeWhile_append_of_pos hdigits,
    List.dropWhile_append_of_pos hdigits]
  simp [hc, Number.readPlainDigits_toDigits]

theorem suffix_of_readNode? {cs : List Char} {r : BlockId × List Char} (h : readNode? cs = some r) :
    r.2 <:+ cs := by
  obtain ⟨rest, hrest, hr⟩ := Option.bind_eq_some_iff.mp h
  obtain ⟨n, _, rfl⟩ := Option.map_eq_some_iff.mp hr
  rw [dropPrefix?_iff.mp hrest]
  exact (List.dropWhile_suffix _).trans (List.suffix_append _ _)

/-- What follows the name at the beginning of a line. -/
theorem infix_of_named {line p s : List Char} {r : BlockId × List Char}
    (h : (line.dropPrefix? "    ".toList).bind readNode? = some r)
    (hp : r.2.dropPrefix? p = some s) : p <:+: line := by
  obtain ⟨rest, hrest, hr⟩ := Option.bind_eq_some_iff.mp h
  have hsuffix := suffix_of_readNode? hr
  rw [dropPrefix?_iff.mp hp] at hsuffix
  rw [dropPrefix?_iff.mp hrest]
  exact (List.prefix_append p s).isInfix.trans (hsuffix.trans (List.suffix_append _ _)).isInfix

section Apart

/-- What no text in a table does: an opening bracket before a blank begins a table, and a dash
before a closing one is that of an edge. -/
def Apart (a b : Char) : Prop := ¬(a = '<' ∧ b = ' ') ∧ ¬(a = '-' ∧ b = '>')

instance (a b : Char) : Decidable (Apart a b) :=
  inferInstanceAs (Decidable (¬(a = '<' ∧ b = ' ') ∧ ¬(a = '-' ∧ b = '>')))

variable {l p q r : List Char}

theorem nodeOf?_of_apart (h : l.IsChain Apart) : nodeOf? l = none := by
  rw [Option.eq_none_iff_forall_ne_some]
  intro n hn
  obtain ⟨r, hr, hn⟩ := Option.bind_eq_some_iff.mp hn
  obtain ⟨rest, hrest, _⟩ := Option.map_eq_some_iff.mp hn
  have happart := List.IsChain.infix h (infix_of_named hr hrest)
  exact absurd happart (by decide)

theorem edgeOf?_of_apart (h : l.IsChain Apart) : edgeOf? l = none := by
  rw [Option.eq_none_iff_forall_ne_some]
  intro e he
  obtain ⟨r, hr, he⟩ := Option.bind_eq_some_iff.mp he
  obtain ⟨t, ht, _⟩ := Option.map_eq_some_iff.mp he
  obtain ⟨rest, hrest, _⟩ := Option.bind_eq_some_iff.mp ht
  have happart := List.IsChain.infix h (infix_of_named hr hrest)
  exact absurd happart (by decide)

/-- Whether a text can stand between any two others that keep apart what has to be. -/
structure Bland (l : List Char) : Prop where
  apart : l.IsChain Apart
  ne_nil : l ≠ []
  head : ∀ c ∈ l.head?, c ≠ ' ' ∧ c ≠ '>'
  last : ∀ c ∈ l.getLast?, c ≠ '<' ∧ c ≠ '-'

theorem Bland.append (hp : Bland p) (hq : Bland q) : Bland (p ++ q) where
  apart := by
    refine List.isChain_append.mpr ⟨hp.apart, hq.apart, fun a ha b _ => ?_⟩
    obtain ⟨hopen, hdash⟩ := hp.last a ha
    exact ⟨fun h => hopen h.1, fun h => hdash h.1⟩
  ne_nil := by simp [hp.ne_nil]
  head := by
    rw [List.head?_append_of_ne_nil _ hp.ne_nil]
    exact hp.head
  last := by
    rw [List.getLast?_append_of_ne_nil _ hq.ne_nil]
    exact hq.last

/-- Between two such texts anything can stand. -/
theorem Bland.around (hp : Bland p) (hr : r.IsChain Apart) (hq : Bland q) :
    Bland (p ++ (r ++ q)) where
  apart := by
    refine List.isChain_append.mpr
      ⟨hp.apart, List.isChain_append.mpr ⟨hr, hq.apart, fun a _ b hb => ?_⟩, fun a ha b _ => ?_⟩
    · obtain ⟨hblank, hclose⟩ := hq.head b hb
      exact ⟨fun h => hblank h.2, fun h => hclose h.2⟩
    · obtain ⟨hopen, hdash⟩ := hp.last a ha
      exact ⟨fun h => hopen h.1, fun h => hdash h.1⟩
  ne_nil := by simp [hp.ne_nil]
  head := by
    rw [List.head?_append_of_ne_nil _ hp.ne_nil]
    exact hp.head
  last := by
    rw [List.getLast?_append_of_ne_nil _ (by simp [hq.ne_nil]),
      List.getLast?_append_of_ne_nil _ hq.ne_nil]
    exact hq.last

theorem bland_flatMap {α : Type} {F : α → List Char} {xs : List α} (hp : Bland p)
    (h : ∀ x ∈ xs, Bland (F x)) :
    Bland (p ++ xs.flatMap F) := by
  induction xs generalizing p with
  | nil => simpa using hp
  | cons x xs ih =>
    rw [List.flatMap_cons, ← List.append_assoc]
    exact ih (hp.append (h x List.mem_cons_self)) fun y hy => h y (List.mem_cons_of_mem _ hy)

theorem isChain_of_no_brackets (h : ∀ c ∈ l, c ≠ '<' ∧ c ≠ '>') : l.IsChain Apart := by
  induction l with
  | nil => exact .nil
  | cons a l ih =>
    cases l with
    | nil => exact .singleton a
    | cons b l =>
      refine List.isChain_cons_cons.mpr ⟨?_, ih fun c hc => h c (List.mem_cons_of_mem _ hc)⟩
      exact ⟨fun hab => (h a List.mem_cons_self).1 hab.1, fun hab => (h b (by simp)).2 hab.2⟩

end Apart

/-- Brackets are written as entities. -/
theorem no_brackets_escape (s : String) : ∀ c ∈ (escape s).toList, c ≠ '<' ∧ c ≠ '>' := by
  have hentities : ∀ e ∈ ["&amp;", "&#39;", "&lt;", "&gt;", "&#34;"],
      ∀ c ∈ e.toList, c ≠ '<' ∧ c ≠ '>' := by simp
  intro c hc
  simp only [escape, String.toList_join, List.mem_flatMap, List.mem_map] at hc
  obtain ⟨t, ⟨d, _, rfl⟩, hc⟩ := hc
  split at hc
  · exact hentities _ (by simp) c hc
  · exact hentities _ (by simp) c hc
  · exact hentities _ (by simp) c hc
  · exact hentities _ (by simp) c hc
  · exact hentities _ (by simp) c hc
  · next hopen hclose _ =>
    rw [String.toList_singleton, List.mem_singleton] at hc
    exact ⟨hc ▸ hopen, hc ▸ hclose⟩

theorem no_brackets_keepBlanks {s : String} (h : ∀ c ∈ s.toList, c ≠ '<' ∧ c ≠ '>') :
    ∀ c ∈ (keepBlanks s).toList, c ≠ '<' ∧ c ≠ '>' := by
  have hentity : ∀ c ∈ "&nbsp;".toList, c ≠ '<' ∧ c ≠ '>' := by simp
  intro c hc
  simp only [keepBlanks, String.toList_join, List.mem_flatMap, List.mem_map] at hc
  obtain ⟨t, ⟨d, hd, rfl⟩, hc⟩ := hc
  split at hc
  · exact hentity c hc
  · rw [String.toList_singleton, List.mem_singleton] at hc
    exact hc ▸ h d hd

/-- The texts that a table is made of. -/
theorem bland_markup :
    ∀ s ∈ ["<table border=\"1\" cellborder=\"0\" cellspacing=\"0\">\n", "<tr><td width=\"", "\">",
    "<tr><td align=\"left\">", "</td></tr>\n", "<hr/>\n", "</table>"], Bland s.toList := by
  intro s hs
  simp only [List.mem_cons, List.not_mem_nil, or_false] at hs
  rcases hs with rfl | rfl | rfl | rfl | rfl | rfl | rfl
  all_goals exact ⟨by simp [Apart], by simp, by simp, by simp⟩

theorem bland_row (s : String) : Bland (row s).toList := by
  unfold row
  rw [String.toList_append, String.toList_append, List.append_assoc]
  have hcell := isChain_of_no_brackets (no_brackets_keepBlanks (no_brackets_escape s))
  exact Bland.around (bland_markup _ (by simp)) hcell (bland_markup _ (by simp))

theorem bland_titleRow (ls : List String) (title : String) : Bland (titleRow ls title).toList := by
  have hwidth : ∀ n : Nat, (Number.decimal n).toList.IsChain Apart := by
    intro n
    apply isChain_of_no_brackets
    rw [Number.toList_decimal]
    intro c hc
    have hdigit := Nat.isDigit_of_mem_toDigits (by decide) (by decide) hc
    exact ⟨fun he => absurd (he ▸ hdigit) (by decide), fun he => absurd (he ▸ hdigit) (by decide)⟩
  unfold titleRow
  simp only [String.toList_append, List.append_assoc]
  refine Bland.around (bland_markup _ (by simp)) (hwidth _) ?_
  exact Bland.around (bland_markup _ (by simp)) (isChain_of_no_brackets (no_brackets_escape title))
    (bland_markup _ (by simp))

theorem bland_rows {p : List Char} (hp : Bland p) (ls : List String) :
    Bland (p ++ (String.join (ls.map row)).toList) := by
  rw [String.toList_join]
  apply bland_flatMap hp
  intro s hs
  obtain ⟨t, _, rfl⟩ := List.mem_map.mp hs
  exact bland_row t

theorem lines_intercalate {ls : List String} (h : ls ≠ []) :
    lines ("\n".intercalate ls) = ls.flatMap lines := by
  have hne : ls.map String.toList ≠ [] := by simpa using h
  rw [lines, String.toList_intercalate]
  have hsplit := splitOn_intercalate_eq (x := '\n') hne
  rw [List.flatMap_map] at hsplit
  exact hsplit

theorem lines_eq_singleton {s : String} (h : '\n' ∉ s.toList) : lines s = [s.toList] :=
  List.splitOn_eq_singleton h

theorem newline_not_mem_nodeName (n : BlockId) : '\n' ∉ (nodeName n).toList := by
  simp [nodeName, Number.toList_decimal, Number.newline_not_mem_toDigits]

/-- Whether a text has no line that begins a node or is an edge. -/
def Unread (s : String) : Prop :=
  (lines s).filterMap nodeOf? = [] ∧ (lines s).filterMap edgeOf? = []

/-- A line that does not begin with a node's name. -/
theorem unread_of_not_prefix {s : String} (hline : '\n' ∉ s.toList)
    (h : ¬"    bb_".toList <+: s.toList) :
    Unread s := by
  have hname : (s.toList.dropPrefix? "    ".toList).bind readNode? = none := by
    rw [Option.eq_none_iff_forall_ne_some]
    intro r hr
    obtain ⟨rest, hrest, hr⟩ := Option.bind_eq_some_iff.mp hr
    obtain ⟨digits, hdigits, _⟩ := Option.bind_eq_some_iff.mp hr
    apply h
    rw [dropPrefix?_iff.mp hrest, dropPrefix?_iff.mp hdigits]
    exact ⟨digits, rfl⟩
  have hnode : nodeOf? s.toList = none := by rw [nodeOf?, hname, Option.bind_none]
  have hedge : edgeOf? s.toList = none := by rw [edgeOf?, hname, Option.bind_none]
  rw [Unread, lines_eq_singleton hline, List.filterMap_cons_none hnode,
    List.filterMap_cons_none hedge]
  exact ⟨rfl, rfl⟩

/-- The lines before the first block: the name of the function, the looks of it all, and the way
in. -/
def heading (name : String) (entry : BlockId) : List String :=
  ["digraph " ++ Text.quote name ++ " \x7b", "    graph [ fontname = \"Fira Code\" ]",
    "    node [ fontname = \"Fira Code\" fontsize=\"16\" shape = \"plaintext\" ]",
    "    edge [ fontname = \"Fira Code\" ]", "    START [ shape = \"circle\" ]",
    "    START -> " ++ nodeName entry]

theorem unread_heading (name : String) (entry : BlockId) : ∀ s ∈ heading name entry, Unread s := by
  simp only [heading, List.forall_mem_cons]
  refine ⟨?_, ?_, ?_, ?_, ?_, ?_, List.forall_mem_nil _⟩
  · exact unread_of_not_prefix (by simp [Text.newline_not_mem_quote]) (by simp)
  · exact unread_of_not_prefix (by simp) (by simp)
  · exact unread_of_not_prefix (by simp) (by simp)
  · exact unread_of_not_prefix (by simp) (by simp)
  · exact unread_of_not_prefix (by simp) (by simp)
  · exact unread_of_not_prefix (by simp [newline_not_mem_nodeName]) (by simp)

theorem unread_ending : ∀ s ∈ ["\x7d", ""], Unread s := by
  refine List.forall_mem_cons.mpr ⟨?_, List.forall_mem_singleton.mpr ?_⟩
  · exact unread_of_not_prefix (by simp) (by simp)
  · exact unread_of_not_prefix (by simp) (by simp)

theorem Unread.flatMap {ls : List String} (h : ∀ s ∈ ls, Unread s) :
    (ls.flatMap lines).filterMap nodeOf? = [] ∧ (ls.flatMap lines).filterMap edgeOf? = [] := by
  rw [List.filterMap_flatMap, List.filterMap_flatMap, List.flatMap_eq_nil_iff,
    List.flatMap_eq_nil_iff]
  exact ⟨fun s hs => (h s hs).1, fun s hs => (h s hs).2⟩

/-- The line that begins a node. -/
theorem read_nodeLine (n : BlockId) (rest : List Char) :
    nodeOf? (("    " ++ nodeName n ++ " [ label = < ").toList ++ rest) = some n ∧
      edgeOf? (("    " ++ nodeName n ++ " [ label = < ").toList ++ rest) = none := by
  have hname : readNode? ((nodeName n).toList ++ (" [ label = < ".toList ++ rest)) =
      some (n, " [ label = < ".toList ++ rest) := readNode?_nodeName n (by decide)
  have hedge : (" [ label = < ".toList ++ rest).dropPrefix? " -> ".toList = none := by
    rw [Option.eq_none_iff_forall_ne_some]
    intro t ht
    have heq := dropPrefix?_iff.mp ht
    simp at heq
  simp only [nodeOf?, edgeOf?, String.toList_append, List.append_assoc, dropPrefix?_append,
    Option.bind_some, hname, hedge, Option.map_some, Option.bind_none, Option.map_none, and_self]

theorem read_edgeLine (b : Block) (k : Nat) (s : BlockRef) :
    (lines (edgeLine b k s)).filterMap nodeOf? = [] ∧
      (lines (edgeLine b k s)).filterMap edgeOf? = [(b.id, s.number)] := by
  have hlabel : '\n' ∉ (edgeLabel b k).toList := by
    unfold edgeLabel
    split_ifs <;> simp
  have hline : '\n' ∉ (edgeLine b k s).toList := by
    unfold edgeLine
    simp [newline_not_mem_nodeName, hlabel]
  -- what follows the second name is not a digit
  have htarget : ∀ rest :
      List Char, readNode? ((nodeName s.number).toList ++ (" [ label = \"".toList ++ rest)) =
      some (s.number, " [ label = \"".toList ++ rest) :=
    fun rest => readNode?_nodeName _ (by decide)
  have hsource : ∀ rest : List Char, readNode? ((nodeName b.id).toList ++ (" -> ".toList ++ rest)) =
      some (b.id, " -> ".toList ++ rest) := fun rest => readNode?_nodeName _ (by decide)
  have hnode :
      ∀ rest : List Char, (" -> ".toList ++ rest).dropPrefix? " [ label = < ".toList = none := by
    intro rest
    rw [Option.eq_none_iff_forall_ne_some]
    intro t ht
    have heq := dropPrefix?_iff.mp ht
    simp at heq
  rw [lines_eq_singleton hline]
  unfold edgeLine
  simp only [String.toList_append, List.append_assoc, List.filterMap_cons, List.filterMap_nil,
    nodeOf?, edgeOf?, dropPrefix?_append, Option.bind_some, hsource, htarget, hnode,
    Option.map_some, Option.map_none, and_self]

end Drawing

open Drawing

namespace Module

variable (m : Module) (tree : DomTree) (nest : LoopNest)

theorem bland_blockTable (r : BlockRef) (b : Block) :
    Bland (m.blockTable tree nest r b).toList := by
  unfold blockTable
  simp only [String.toList_append]
  refine Bland.append ?_ (bland_markup _ (by simp))
  have hhead :=
    (bland_markup "<table border=\"1\" cellborder=\"0\" cellspacing=\"0\">\n" (by simp)).append
      (bland_titleRow (m.blockNotes tree nest r ++ b.instrs.map fun i => i.text m.scope) b.label)
  have hrule : Bland "<hr/>\n".toList := bland_markup _ (by simp)
  have hnotes := bland_rows (hhead.append hrule) (m.blockNotes tree nest r)
  split
  · simpa using hnotes
  · rw [String.toList_append, ← List.append_assoc]
    exact bland_rows (hnotes.append hrule) _

/-- Of the lines of a node the first one begins it, and no other begins one or is an edge. -/
theorem read_node (r : BlockRef) (b : Block) :
    (lines ("    " ++ nodeName b.id ++ " [ label = < " ++ m.blockTable tree nest r b ++
      " > ]")).filterMap
      nodeOf? = [b.id] ∧
    (lines ("    " ++ nodeName b.id ++ " [ label = < " ++ m.blockTable tree nest r b ++
      " > ]")).filterMap
      edgeOf? = [] := by
  let table := (m.blockTable tree nest r b).toList ++ " > ]".toList
  have hbegin : '\n' ∉ ("    " ++ nodeName b.id ++ " [ label = < ").toList := by
    simp [newline_not_mem_nodeName]
  have htable : table.IsChain Apart := by
    have hbland := m.bland_blockTable tree nest r b
    refine List.isChain_append.mpr ⟨hbland.apart, by simp [Apart], fun a ha c _ => ?_⟩
    obtain ⟨hopen, hdash⟩ := hbland.last a ha
    exact ⟨fun h => hopen h.1, fun h => hdash h.1⟩
  obtain ⟨l, ls, hlines, hrest⟩ := exists_splitOn_append (q := table) hbegin
  have hapart : ∀ x ∈ ls, x.IsChain Apart := by
    intro x hx
    have hmem : x ∈ table.splitOn '\n' := hrest ▸ List.mem_cons_of_mem l hx
    exact List.IsChain.infix htable (infix_of_mem_splitOn hmem)
  obtain ⟨hnode, hedge⟩ := read_nodeLine b.id l
  rw [lines, String.toList_append, String.toList_append, List.append_assoc, hlines,
    List.filterMap_cons_some hnode, List.filterMap_cons_none hedge,
    List.filterMap_eq_nil_iff.mpr fun x hx => nodeOf?_of_apart (hapart x hx),
    List.filterMap_eq_nil_iff.mpr fun x hx => edgeOf?_of_apart (hapart x hx)]
  exact ⟨rfl, rfl⟩

/-- The node of a block and the edges out of it are read from what is drawn of the block. -/
theorem read_drawBlock {r : BlockRef} {b : Block} (h : m.block? r = some b) :
    ((m.drawBlock tree nest r).flatMap lines).filterMap nodeOf? = [b.id] ∧
      ((m.drawBlock tree nest r).flatMap lines).filterMap edgeOf? = b.succs.map fun s =>
        (b.id, s.number) := by
  have hedges : ((b.succs.mapIdx (edgeLine b)).flatMap lines).filterMap nodeOf? = [] ∧
      ((b.succs.mapIdx (edgeLine b)).flatMap lines).filterMap edgeOf? = b.succs.map fun s =>
        (b.id, s.number) := by
    rw [List.mapIdx_eq_zipIdx_map]
    generalize 0 = k
    induction b.succs generalizing k with
    | nil => exact ⟨rfl, rfl⟩
    | cons s ss ih =>
      obtain ⟨hnodes, hedges⟩ := ih (k + 1)
      obtain ⟨hnode, hedge⟩ := read_edgeLine b k s
      rw [List.zipIdx_cons, List.map_cons, List.flatMap_cons, List.filterMap_append,
        List.filterMap_append, hnode, hedge, hnodes, hedges]
      exact ⟨rfl, rfl⟩
  obtain ⟨hnode, hnone⟩ := m.read_node tree nest r b
  unfold drawBlock
  rw [h]
  simp only [List.flatMap_cons, List.filterMap_append]
  rw [hnode, hnone, hedges.1, hedges.2]
  exact ⟨rfl, rfl⟩

end Module

end KernelIR
