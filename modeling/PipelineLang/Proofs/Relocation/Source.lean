import PipelineLang.Proofs.Leaf.Refinement
import PipelineLang.Proofs.Relocation.Compilation
import PipelineLang.Proofs.Relocation.Grammar

/-!
Source texts with the same tokens at other places. Tokens follow each other in both texts, so there
is a relocation that takes each token of the one to its counterpart in the other, byte by byte.
Hence nothing but the digest of the source in the code depends on blanks and comments.
-/

namespace PipelineLang

/-- A correspondence that merges no places on either side is part of an injective function. -/
theorem exists_injective_extending {P : Nat → Nat → Prop} {bound : Nat}
    (hunique : ∀ m n m' n', P m n → P m' n' → (m = m' ↔ n = n'))
    (hbound : ∀ m n, P m n → n < bound) :
    ∃ f : Nat → Nat, (∀ {m n}, f m = f n → m = n) ∧ ∀ m n, P m n → f m = n := by
  classical
  let f (m : Nat) : Nat := if h : ∃ n, P m n then h.choose else bound + m
  have hrelated : ∀ {m}, (∃ n, P m n) → P m (f m) := by
    intro m h
    simp only [f, dif_pos h]
    exact h.choose_spec
  have hfree : ∀ {m}, ¬ (∃ n, P m n) → f m = bound + m := fun h => dif_neg h
  refine ⟨f, fun {m n} heq => ?_, fun m n h => ?_⟩
  · by_cases hm : ∃ k, P m k <;> by_cases hn : ∃ k, P n k
    · exact (hunique _ _ _ _ (hrelated hm) (hrelated hn)).mpr heq
    · have hlt := hbound _ _ (hrelated hm)
      have hge := hfree hn
      omega
    · have hlt := hbound _ _ (hrelated hn)
      have hge := hfree hm
      omega
    · have hm' := hfree hm
      have hn' := hfree hn
      omega
  · exact (hunique _ _ _ _ (hrelated ⟨n, h⟩) h).mp rfl

namespace Lexeme

def width (l : Lexeme) : Nat := l.text.utf8ByteSize

/-- Tokens that follow each other, each as long as its text. -/
structure InOrder (ls : List Lexeme) : Prop where
  width : ∀ l ∈ ls, l.span.stop = l.span.start + l.width ∧ 0 < l.width
  apart : ls.Pairwise fun a b => a.span.stop ≤ b.span.start

def lastStop (ls : List Lexeme) : Nat := (ls.getLast?.map fun l => l.span.stop).getD 0

theorem InOrder.stop_le_lastStop {ls : List Lexeme} (h : InOrder ls) {l : Lexeme} (hl : l ∈ ls) :
    l.span.stop ≤ lastStop ls := by
  cases hlast : ls.getLast? with
  | none =>
    rw [List.getLast?_eq_none_iff.mp hlast] at hl
    cases hl
  | some last =>
    obtain ⟨before, rfl⟩ := List.getLast?_eq_some_iff.mp hlast
    have hstop : lastStop (before ++ [last]) = last.span.stop := by simp [lastStop]
    rw [hstop]
    rcases List.mem_append.mp hl with hl | hl
    · have hapart := (List.pairwise_append.mp h.apart).2.2 l hl last (List.mem_singleton_self last)
      have hwidth := (h.width last (List.mem_append_right _ (List.mem_singleton_self last))).1
      omega
    · rw [List.mem_singleton.mp hl]

end Lexeme

open Lexeme

structure Counterparts (rows : List (Lexeme × Lexeme)) : Prop where
  token : ∀ x ∈ rows, x.1.token = x.2.token
  text : ∀ x ∈ rows, x.1.text = x.2.text
  left : InOrder (rows.map Prod.fst)
  right : InOrder (rows.map Prod.snd)

namespace Counterparts

variable {rows : List (Lexeme × Lexeme)}

def Ends (rows : List (Lexeme × Lexeme)) (m n : Nat) : Prop :=
  m = lastStop (rows.map Prod.fst) ∧ n = lastStop (rows.map Prod.snd)

/-- Corresponding places at which something may begin: the bytes of tokens, and the end of all
tokens. -/
def Starts (rows : List (Lexeme × Lexeme)) (m n : Nat) : Prop :=
  (∃ x ∈ rows, ∃ k < x.1.width, m = x.1.span.start + k ∧ n = x.2.span.start + k) ∨ Ends rows m n

/-- Corresponding places at which something may end: behind the bytes of tokens, and in front of
all. -/
def Stops (rows : List (Lexeme × Lexeme)) (m n : Nat) : Prop :=
  (∃ x ∈ rows, ∃ k < x.1.width, m = x.1.span.start + k + 1 ∧ n = x.2.span.start + k + 1) ∨
  m = 0 ∧ n = 0

structure Bounds (rows : List (Lexeme × Lexeme)) (x : Lexeme × Lexeme) : Prop where
  pos : 0 < x.1.width
  left : x.1.span.stop = x.1.span.start + x.1.width
  right : x.2.span.stop = x.2.span.start + x.1.width
  left_le : x.1.span.stop ≤ lastStop (rows.map Prod.fst)
  right_le : x.2.span.stop ≤ lastStop (rows.map Prod.snd)

theorem bounds (h : Counterparts rows) {x : Lexeme × Lexeme} (hx : x ∈ rows) : Bounds rows x := by
  have hleft := List.mem_map_of_mem (f := Prod.fst) hx
  have hright := List.mem_map_of_mem (f := Prod.snd) hx
  have hwidth : x.2.width = x.1.width := congrArg String.utf8ByteSize (h.text x hx).symm
  refine ⟨(h.left.width _ hleft).2, (h.left.width _ hleft).1, ?_, h.left.stop_le_lastStop hleft,
    h.right.stop_le_lastStop hright⟩
  rw [(h.right.width _ hright).1, hwidth]

/-- One row stands before the other one, on both sides. -/
def Before (x y : Lexeme × Lexeme) : Prop :=
  x.1.span.stop ≤ y.1.span.start ∧ x.2.span.stop ≤ y.2.span.start

theorem pairwise_before (h : Counterparts rows) : rows.Pairwise Before :=
  (List.pairwise_map.mp h.left.apart).and (List.pairwise_map.mp h.right.apart)

theorem before_or (h : Counterparts rows) {x y : Lexeme × Lexeme} (hx : x ∈ rows) (hy : y ∈ rows) :
    x = y ∨ Before x y ∨ Before y x := by
  obtain ⟨i, hi, rfl⟩ := List.getElem_of_mem hx
  obtain ⟨j, hj, rfl⟩ := List.getElem_of_mem hy
  rcases Nat.lt_trichotomy i j with hij | rfl | hij
  · exact .inr (.inl (List.pairwise_iff_getElem.mp h.pairwise_before i j hi hj hij))
  · exact .inl rfl
  · exact .inr (.inr (List.pairwise_iff_getElem.mp h.pairwise_before j i hj hi hij))

theorem byte_eq_iff (h : Counterparts rows) {x y : Lexeme × Lexeme} (hx : x ∈ rows) (hy : y ∈ rows)
    {k l : Nat} (hk : k < x.1.width) (hl : l < y.1.width) :
    x.1.span.start + k = y.1.span.start + l ↔ x.2.span.start + k = y.2.span.start + l := by
  have hbx := h.bounds hx
  have hby := h.bounds hy
  have hxl := hbx.left
  have hxr := hbx.right
  have hyl := hby.left
  have hyr := hby.right
  rcases h.before_or hx hy with rfl | ⟨hleft, hright⟩ | ⟨hleft, hright⟩ <;> omega

theorem starts_unique (h : Counterparts rows) (m n m' n' : Nat) (hmn : Starts rows m n)
    (hmn' : Starts rows m' n') :
    m = m' ↔ n = n' := by
  rcases hmn with ⟨x, hx, k, hk, rfl, rfl⟩ | ⟨rfl, rfl⟩ <;>
    rcases hmn' with ⟨y, hy, l, hl, rfl, rfl⟩ | ⟨rfl, rfl⟩
  · exact h.byte_eq_iff hx hy hk hl
  · obtain ⟨-, hleft, hright, hle, hle'⟩ := h.bounds hx
    omega
  · obtain ⟨-, hleft, hright, hle, hle'⟩ := h.bounds hy
    omega
  · simp

theorem stops_unique (h : Counterparts rows) (m n m' n' : Nat) (hmn : Stops rows m n)
    (hmn' : Stops rows m' n') :
    m = m' ↔ n = n' := by
  rcases hmn with ⟨x, hx, k, hk, rfl, rfl⟩ | ⟨rfl, rfl⟩ <;>
    rcases hmn' with ⟨y, hy, l, hl, rfl, rfl⟩ | ⟨rfl, rfl⟩
  · have hbytes := h.byte_eq_iff hx hy hk hl
    omega
  · omega
  · omega
  · simp

theorem exists_relocation (h : Counterparts rows) :
    ∃ φ : Relocation, (∀ m n, Starts rows m n → φ.start m = n) ∧ ∀ m n, Stops rows m n →
    φ.stop m = n := by
  have hstart : ∀ m n, Starts rows m n → n < lastStop (rows.map Prod.snd) + 1 := by
    rintro m n (⟨x, hx, k, hk, -, rfl⟩ | ⟨-, rfl⟩)
    · obtain ⟨-, -, hright, -, hle⟩ := h.bounds hx
      omega
    · omega
  have hstop : ∀ m n, Stops rows m n → n < lastStop (rows.map Prod.snd) + 1 := by
    rintro m n (⟨x, hx, k, hk, -, rfl⟩ | ⟨-, rfl⟩)
    · obtain ⟨-, -, hright, -, hle⟩ := h.bounds hx
      omega
    · omega
  obtain ⟨f, hf, hfstarts⟩ := exists_injective_extending h.starts_unique hstart
  obtain ⟨g, hg, hgstops⟩ := exists_injective_extending h.stops_unique hstop
  exact ⟨⟨f, g, hf, hg⟩, hfstarts, hgstops⟩

theorem stops_last (h : Counterparts rows) :
    Stops rows (lastStop (rows.map Prod.fst)) (lastStop (rows.map Prod.snd)) := by
  cases hlast : rows.getLast? with
  | none =>
    rw [List.getLast?_eq_none_iff.mp hlast]
    exact .inr ⟨rfl, rfl⟩
  | some x =>
    have hx := List.mem_of_getLast? hlast
    have hb := h.bounds hx
    have hpos := hb.pos
    refine .inl ⟨x, hx, x.1.width - 1, by omega, ?_, ?_⟩
    · simp only [lastStop, List.getLast?_map, hlast, Option.map_some, Option.getD_some]
      have hleft := hb.left
      omega
    · simp only [lastStop, List.getLast?_map, hlast, Option.map_some, Option.getD_some]
      have hright := hb.right
      omega

section Relocated

variable {φ : Relocation} (h : Counterparts rows) (hstarts : ∀ m n, Starts rows m n → φ.start m = n)
  (hstops : ∀ m n, Stops rows m n → φ.stop m = n) {x : Lexeme × Lexeme} (hx : x ∈ rows)

include hstarts hx in
theorem start_byte {k : Nat} (hk : k < x.1.width) :
    φ.start (x.1.span.start + k) = x.2.span.start + k :=
  hstarts _ _ (.inl ⟨x, hx, k, hk, rfl, rfl⟩)

include hstops hx in
theorem stop_byte {k : Nat} (hk : k < x.1.width) :
    φ.stop (x.1.span.start + k + 1) = x.2.span.start + k + 1 :=
  hstops _ _ (.inl ⟨x, hx, k, hk, rfl, rfl⟩)

include h hstarts hstops hx

theorem eq_relocate : x.2 = x.1.relocate φ := by
  obtain ⟨hpos, hleft, hright, -, -⟩ := h.bounds hx
  have hbegin := start_byte hstarts hx hpos
  have hend := stop_byte hstops hx (k := x.1.width - 1) (by omega)
  rw [show x.1.span.start + (x.1.width - 1) + 1 = x.1.span.stop by omega,
    show x.2.span.start + (x.1.width - 1) + 1 = x.2.span.stop by omega] at hend
  have htoken := h.token x hx
  have htext := h.text x hx
  obtain ⟨l, token, text, start, stop⟩ := x
  simp only [Nat.add_zero] at hbegin hend htoken htext
  simp only [Lexeme.relocate, Span.relocate, htoken, htext, hbegin, hend]

omit h in
theorem fits (hspelled : x.1.Spelled) (hqualified : ∀ q n, x.1.token = .qualified q n → q ≠ "") :
    x.1.Fits φ := by
  intro qualifier name htoken
  obtain ⟨htext, hword, -⟩ := hspelled.qualified qualifier name htoken
  have hqualifier : qualifier.utf8ByteSize ≠ 0 := fun hzero =>
    hqualified qualifier name htoken (String.utf8ByteSize_eq_zero_iff.mp hzero)
  have hname : name.utf8ByteSize ≠ 0 := by
    intro hzero
    obtain ⟨c, cs, hcs, -⟩ := hword
    rw [String.utf8ByteSize_eq_zero_iff.mp hzero] at hcs
    cases hcs
  have hwidth : x.1.width = qualifier.utf8ByteSize + 1 + name.utf8ByteSize := by
    rw [width, htext, String.utf8ByteSize_append, String.utf8ByteSize_append]
    rfl
  have hbegin := start_byte hstarts hx (k := 0) (by omega)
  have hbehind := start_byte hstarts hx (k := qualifier.utf8ByteSize + 1) (by omega)
  have hend := stop_byte hstops hx (k := qualifier.utf8ByteSize - 1) (by omega)
  rw [Nat.add_zero, Nat.add_zero] at hbegin
  rw [Nat.add_assoc, Nat.add_assoc, Nat.sub_add_cancel (Nat.pos_of_ne_zero hqualifier)] at hend
  rw [hbegin]
  exact ⟨hend, hbehind⟩

end Relocated

theorem exists_relocate (h : Counterparts rows)
    (hspelled : ∀ x ∈ rows, x.1.Spelled)
    (hqualified : ∀ x ∈ rows, ∀ q n, x.1.token = .qualified q n → q ≠ "") :
    ∃ φ, Cursor.ofLexemes (rows.map Prod.snd) = (Cursor.ofLexemes (rows.map Prod.fst)).relocate φ
      ∧ (Cursor.ofLexemes (rows.map Prod.fst)).Fits φ := by
  obtain ⟨φ, hstarts, hstops⟩ := h.exists_relocation
  refine ⟨φ, ?_, ?_, ?_⟩
  · have hrows : rows.map Prod.snd = (rows.map Prod.fst).map (Lexeme.relocate φ) := by
      rw [List.map_map]
      exact List.map_congr_left fun x hx => h.eq_relocate hstarts hstops hx
    rw [hrows]
    simp only [Cursor.ofLexemes, Cursor.relocate, hstops 0 0 (.inr ⟨rfl, rfl⟩)]
  · intro l hl
    obtain ⟨x, hx, rfl⟩ := List.mem_map.mp hl
    exact fits hstarts hstops hx (hspelled x hx) (hqualified x hx)
  · have hend := hstarts _ _ (.inr ⟨rfl, rfl⟩)
    exact hend.trans (hstops _ _ h.stops_last).symm

end Counterparts

theorem inOrder_lexemes (source : String) : InOrder (Scan.ofSource source).lexemes := by
  constructor
  · intro l hl
    obtain ⟨p, hp, hl⟩ := List.mem_filterMap.mp hl
    obtain ⟨c, rest, hchars, -⟩ := mem_pieces hp
    obtain ⟨htext, hspan, -⟩ := Piece.of_lexeme? hl
    have hwidth : l.width = utf8Length p.chars := by rw [width, htext, utf8ByteSize_ofList]
    refine ⟨by rw [hspan, hwidth]; rfl, ?_⟩
    rw [hwidth, hchars]
    exact utf8Length_pos (List.cons_ne_nil _ _)
  · rw [Scan.ofSource, List.pairwise_filterMap]
    refine (stop_le_start_pieces 0 source.toList).imp fun hle a ha b hb => ?_
    rw [(Piece.of_lexeme? ha).2.1, (Piece.of_lexeme? hb).2.1]
    exact hle

section SameTokens

variable {source source' : String}
  (hclean : (Scan.ofSource source).faults = []) (hclean' : (Scan.ofSource source').faults = [])
  (htexts : (Scan.ofSource source).lexemes.map Lexeme.text =
    (Scan.ofSource source').lexemes.map Lexeme.text)
include hclean hclean' htexts

theorem exists_relocate_lexemes :
    ∃ φ, Cursor.ofLexemes (Scan.ofSource source').lexemes =
        (Cursor.ofLexemes (Scan.ofSource source).lexemes).relocate φ
      ∧ (Cursor.ofLexemes (Scan.ofSource source).lexemes).Fits φ := by
  have hlength : (Scan.ofSource source).lexemes.length =
      (Scan.ofSource source').lexemes.length := by
    simpa using congrArg List.length htexts
  generalize hrows : (Scan.ofSource source).lexemes.zip (Scan.ofSource source').lexemes = rows
  have hfst : rows.map Prod.fst = (Scan.ofSource source).lexemes := by
    rw [← hrows, List.map_fst_zip (Nat.le_of_eq hlength)]
  have hsnd : rows.map Prod.snd = (Scan.ofSource source').lexemes := by
    rw [← hrows, List.map_snd_zip (Nat.le_of_eq hlength.symm)]
  have hmem : ∀ x ∈ rows, x.1 ∈ (Scan.ofSource source).lexemes :=
    fun x hx => hfst ▸ List.mem_map_of_mem hx
  have hmem' : ∀ x ∈ rows, x.2 ∈ (Scan.ofSource source').lexemes :=
    fun x hx => hsnd ▸ List.mem_map_of_mem hx
  have hsame : rows.map (Lexeme.text ∘ Prod.fst) = rows.map (Lexeme.text ∘ Prod.snd) := by
    rw [← List.map_map, ← List.map_map, hfst, hsnd, htexts]
  have htext : ∀ x ∈ rows, x.1.text = x.2.text := List.map_inj_left.mp hsame
  have h : Counterparts rows := by
    refine ⟨fun x hx => ?_, htext, ?_, ?_⟩
    · exact token_eq_of_text hclean hclean' (hmem x hx) (hmem' x hx) (htext x hx)
    · exact hfst ▸ inOrder_lexemes source
    · exact hsnd ▸ inOrder_lexemes source'
  rw [← hfst, ← hsnd]
  exact h.exists_relocate (fun x hx => spelled_of_mem (hmem x hx))
    fun x hx _ _ hname => qualifier_ne_empty_of_mem (hmem x hx) hname

/-- Texts with the same tokens are read as the same program at other places, or fail for the same
reason. -/
theorem Parsed.exists_relocate :
    ∃ φ, (ofSource source').program = (ofSource source).program.map (Program.relocate φ)
      ∧ (ofSource source').findings.map Finding.problem =
        (ofSource source).findings.map Finding.problem := by
  obtain ⟨φ, hcursor, hfits⟩ := exists_relocate_lexemes hclean hclean' htexts
  have hlexemes : (Scan.ofSource source').lexemes =
      (Scan.ofSource source).lexemes.map (Lexeme.relocate φ) :=
    congrArg Cursor.ahead hcursor
  have hfailure : ∀ indices : List Nat,
      (indices.map (failure source' (Scan.ofSource source').lexemes)).map Finding.problem =
        (indices.map (failure source (Scan.ofSource source).lexemes)).map Finding.problem := by
    intro indices
    rw [List.map_map, List.map_map]
    refine List.map_congr_left fun index _ => ?_
    simp only [Function.comp_apply, failure, hlexemes, List.getElem?_map]
    cases (Scan.ofSource source).lexemes[index]? <;> rfl
  have hmoved := Rule.moves_program.outcome _ .empty hfits
  refine ⟨φ, ?_⟩
  simp only [ofSource, hclean, hclean', List.map_nil, List.nil_append]
  rw [hcursor]
  revert hmoved
  generalize Rule.program (Cursor.ofLexemes (Scan.ofSource source).lexemes) .empty = outcome
  generalize Rule.program ((Cursor.ofLexemes (Scan.ofSource source).lexemes).relocate φ) .empty =
    outcome'
  rintro (t | ⟨t, hab, hc⟩)
  · exact ⟨rfl, hfailure t.atEnd⟩
  · exact ⟨congrArg some hab, hfailure t.reported⟩

end SameTokens

namespace Diagnostic

def placeless (d : Diagnostic) : Diagnostic := { d with span := .endOf 0 }

theorem placeless_of_problems {findings findings' : List Finding}
    (h : findings'.map Finding.problem = findings.map Finding.problem) :
    (findings'.map ofFinding).map placeless = (findings.map ofFinding).map placeless := by
  have hproblem : ∀ fs : List Finding, (fs.map ofFinding).map placeless =
      (fs.map Finding.problem).map fun problem => placeless (ofFinding ⟨.endOf 0, problem⟩) := by
    intro fs
    rw [List.map_map, List.map_map]
    rfl
  rw [hproblem, hproblem, h]

end Diagnostic

/-- Blanks and comments do not matter: texts whose tokens have the same texts, and so are the same,
get the same messages at other places, and the same code but for the line that tells the digest of
the source. -/
theorem compile_ignores_layout {source source' : String}
    (hclean : (Scan.ofSource source).faults = []) (hclean' : (Scan.ofSource source').faults = [])
    (htexts : (Scan.ofSource source).lexemes.map Lexeme.text =
      (Scan.ofSource source').lexemes.map Lexeme.text)
    (file : String) (registry : Registry) (files : FileTree) {o : CodeOptions}
    (ho : o.instrument = false) :
    let result := compile source file registry files o
    let result' := compile source' file registry files o
    (result'.findings.map Diagnostic.ofFinding).map Diagnostic.placeless =
        (result.findings.map Diagnostic.ofFinding).map Diagnostic.placeless
      ∧ (result.code = none ∧ result'.code = none ∨ ∃ before after,
        result.code = some (unlines
          (before ++ ("# source sha256 " ++ (o.origin source registry).source.hex) :: after))
        ∧ result'.code =
          some (unlines (before ++ ("# source sha256 " ++
            (o.origin source' registry).source.hex) :: after))) := by
  intro result result'
  obtain ⟨φ, hprogram, hproblems⟩ := Parsed.exists_relocate hclean hclean' htexts
  by_cases hnil : (Parsed.ofSource source).findings = []
  · have hnil' : (Parsed.ofSource source').findings = [] := by
      rw [hnil] at hproblems
      exact List.map_eq_nil_iff.mp hproblems
    cases hp : (Parsed.ofSource source).program with
    | none => exact absurd hnil (Parsed.findings_ne_nil_of_none hp)
    | some p =>
      rw [hp] at hprogram
      have himports : ∀ i ∈ p.imports,
          Resolution.imported registry files p.component.isLeaf i.path.name =
          Resolution.imported registry files p.component.isLeaf i.path.name := fun _ _ => rfl
      obtain ⟨hfound, hcodes⟩ := compile_relocate hp hnil hprogram hnil' himports file
        fun htraced => absurd htraced (by rw [ho]; decide)
      refine ⟨Diagnostic.placeless_of_problems hfound, hcodes.imp_right ?_⟩
      rintro ⟨rest, hcode, hcode'⟩
      obtain ⟨top, htop⟩ := o.exists_header
      have hinterfaces : (o.origin source' registry).interfaces =
          (o.origin source registry).interfaces := by
        rw [CodeOptions.interfaces_origin, CodeOptions.interfaces_origin]
      refine ⟨top, ("# signatures sha256 " ++
        (o.origin source registry).interfaces.hex) :: "#" :: rest, ?_, ?_⟩
      · rw [hcode, htop, List.append_assoc]
        rfl
      · rw [hcode', htop, hinterfaces, List.append_assoc]
        rfl
  · have hnil' : (Parsed.ofSource source').findings ≠ [] := by
      intro hnil'
      rw [hnil'] at hproblems
      exact hnil (List.map_eq_nil_iff.mp hproblems.symm)
    simp only [result, result', compile_of_findings hnil, compile_of_findings hnil']
    exact ⟨Diagnostic.placeless_of_problems hproblems, .inl ⟨trivial, trivial⟩⟩

def dense : String :=
  "import m as m component c inputs a outputs b configuration k do x <- m.f(a) return b <- x"

def spread : String :=
  "# a leaf\nimport m\n  as m\n\ncomponent c\n  inputs a\n  outputs b\n  configuration k # unused\n"
    ++ "do\n  x<-m.f ( a )\n  return b<-x # \"b\"\n"

theorem spread_compiled_as_dense :
    (Scan.ofSource dense).faults = [] ∧ (Scan.ofSource spread).faults = [] ∧ dense ≠ spread
    ∧ (Scan.ofSource dense).lexemes.map Lexeme.text = (Scan.ofSource spread).lexemes.map Lexeme.text
    ∧ ((compile spread "c.pcl" Program.oneFunction .empty ⟨false, "now", none⟩).findings.map
        Diagnostic.ofFinding).map
        Diagnostic.placeless =
      ((compile dense "c.pcl" Program.oneFunction .empty ⟨false, "now", none⟩).findings.map
          Diagnostic.ofFinding).map
        Diagnostic.placeless
    ∧ ∃ before after,
      (compile dense "c.pcl" Program.oneFunction .empty ⟨false, "now", none⟩).code =
        some (unlines (before ++ ("# source sha256 " ++ (Sha256.ofText dense).hex) :: after))
      ∧ (compile spread "c.pcl" Program.oneFunction .empty ⟨false, "now", none⟩).code =
        some (unlines (before ++ ("# source sha256 " ++ (Sha256.ofText spread).hex) :: after)) := by
  have hdense : (Scan.ofSource dense).faults = [] := by decide +kernel
  have hspread : (Scan.ofSource spread).faults = [] := by decide +kernel
  have htexts : (Scan.ofSource dense).lexemes.map Lexeme.text =
      (Scan.ofSource spread).lexemes.map Lexeme.text := by
    decide +kernel
  obtain ⟨hmessages, hcode⟩ :=
    compile_ignores_layout hdense hspread htexts "c.pcl" Program.oneFunction .empty
    (o := ⟨false, "now", none⟩) rfl
  simp only [CodeOptions.source_origin, Option.map_none, Option.getD_none] at hcode
  have hsome : (compile dense "c.pcl" Program.oneFunction .empty ⟨false, "now", none⟩).code.isSome =
      true := by
    decide +kernel
  refine ⟨hdense, hspread, by decide +kernel, htexts, hmessages, hcode.resolve_left fun hnone => ?_⟩
  rw [hnone.1] at hsome
  cases hsome

end PipelineLang
