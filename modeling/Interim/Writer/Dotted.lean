import Interim.Writer.Bounds
import Interim.Alloc.Strings

/-!
# Printing dotted pairs

`write_` on trees of integers, symbols, strings and conses with any tail. A
cons cell whose `dr` is no cons cell is printed as `(a . d)` whether or not it
stands inside a list (lines 61–65), so `in_list` matters for the other cons
cells only.

* `write_text` — `write_` puts `Node.text` into a buffer that is large enough.
-/

namespace Interim.Writer

open Heap Reader

/-! ## Trees of cells -/

/-- A cell tree: atoms, the empty list, and pairs. -/
inductive Node
  | int (v : BitVec 64)
  | sym (name : List UInt8)
  | str (s : List UInt8)
  | nil
  | cons (a d : Node)
  deriving DecidableEq, Repr

/-- Whether the cell has `TAG_CONS`. -/
def Node.isCons : Node → Bool
  | .nil | .cons _ _ => true
  | _ => false

/-- The cells from `w` on are the tree. A string has `dr.size` bytes with a
    zero among them or right after them, as the allocators make it. -/
def Holds (h : Heap) : Node → Word → Prop
  | .int v, w => ∃ i, w = .cell i ∧ (h.cells i).tag = tagInt ∧ (h.cells i).ar = .int v
  | .sym name, w =>
    ∃ i, w = .cell i ∧ (h.cells i).tag = tagSym ∧ cString h (h.cells i).ar = .ok name
  | .str s, w =>
    ∃ i b rest, w = .cell i ∧ (h.cells i).tag = tagStr ∧ (h.cells i).ar = .ptr (.bytes b) 0 ∧
      (h.cells i).dr = .ofNat s.length ∧ s.length < 2 ^ 31 ∧ h.bytes b = s ++ rest ∧
      (0 ∈ s ∨ ∃ r, rest = 0 :: r)
  | .nil, w => ∃ i, w = .cell i ∧ h.cells i = ⟨.null, .null, tagCons⟩
  | .cons a d, w =>
    ∃ i, w = .cell i ∧ (h.cells i).tag = tagCons ∧ Holds h a (h.cells i).ar ∧
      Holds h d (h.cells i).dr

/-- `A` to `Z` and `a` to `z`. -/
def isAlpha (c : UInt8) : Bool :=
  (65 ≤ c.toNat ∧ c.toNat ≤ 90) ∨ (97 ≤ c.toNat ∧ c.toNat ≤ 122)

/-- Symbols with alphabetic names and strings without quotes. -/
def Node.Plain : Node → Prop
  | .sym name => name ≠ [] ∧ ∀ c ∈ name, isAlpha c = true
  | .str s => dquote ∉ s
  | .cons a d => a.Plain ∧ d.Plain
  | .int _ | .nil => True

/-- What `write_` prints. `%s` stops at the first zero of a string. -/
def Node.text : Node → Bool → List UInt8
  | .int v, _ => intText v.toInt
  | .sym name, _ => name
  | .str s, _ => ascii "\"" ++ (content s ++ ascii "\"")
  | .nil, inList => if inList then [] else ascii "nil"
  | .cons a d, inList => consText d.isCons inList (a.text false) (d.text d.isCons)

/-- The text and all texts inside it fit the buffers they are printed to; the
    outermost one is told to have `n` bytes. -/
def Node.Fits : Node → Bool → ℕ → Prop
  | .str s, _, n => (content s).length + 5 ≤ n
  | .nil, inList, n => (Node.nil.text inList).length + 2 ≤ n
  | .int v, _, n => (intText v.toInt).length + 2 ≤ n
  | .sym name, _, n => name.length + 2 ≤ n
  | .cons a d, inList, n => ((Node.cons a d).text inList).length + 2 ≤ n ∧
      a.Fits false tmpBufSize ∧ d.Fits d.isCons tmpBufSize

/-- How deep `write_` calls itself. -/
def Node.calls : Node → ℕ
  | .cons a d => 1 + a.calls + d.calls
  | _ => 1

section Text

variable {h : Heap} {t : Node} {w : Word}

theorem Holds.cell (ht : Holds h t w) : ∃ i, w = .cell i := by
  cases t with
  | int | sym | nil | cons =>
    obtain ⟨i, rfl, -⟩ := ht
    exact ⟨i, rfl⟩
  | str =>
    obtain ⟨i, -, -, rfl, -⟩ := ht
    exact ⟨i, rfl⟩

/-- The test for a proper tail. -/
theorem Holds.isConsPtr (ht : Holds h t w) : isConsPtr h w = .ok t.isCons := by
  have hcell : ∀ i, Writer.isConsPtr h (.cell i) = .ok (decide ((h.cells i).tag = tagCons)) := by
    intro i
    rw [Writer.isConsPtr, if_neg (by simp)]
    rfl
  cases t with
  | int | sym =>
    obtain ⟨i, rfl, htag, -⟩ := ht
    rw [hcell, htag]
    rfl
  | str =>
    obtain ⟨i, b, rest, rfl, htag, -⟩ := ht
    rw [hcell, htag]
    rfl
  | nil =>
    obtain ⟨i, rfl, hi⟩ := ht
    rw [hcell, hi]
    rfl
  | cons =>
    obtain ⟨i, rfl, htag, -⟩ := ht
    rw [hcell, htag]
    rfl

theorem Node.calls_pos (t : Node) : 0 < t.calls := by
  cases t with
  | cons a d =>
    rw [Node.calls]
    omega
  | int | sym | str | nil => exact Nat.one_pos

theorem content_eq_self {s : List UInt8} (hz : 0 ∉ s) : content s = s :=
  List.takeWhile_eq_self_iff.mpr fun c hc => by simpa using fun h0 : c = 0 => hz (h0 ▸ hc)

/-- The C string of a string cell. -/
theorem cString_content {b : ℕ} {s rest : List UInt8} (hb : h.bytes b = s ++ rest)
    (hz : 0 ∈ s ∨ ∃ r, rest = 0 :: r) : cString h (.ptr (.bytes b) 0) = .ok (content s) := by
  by_cases h0 : 0 ∈ s
  · obtain ⟨tail, hs⟩ := exists_content h0
    have hbuf : h.bytes b = content s ++ 0 :: (tail ++ rest) := by
      rw [hb, ← List.cons_append, ← List.append_assoc, ← hs]
    exact cString_bytes hbuf (zero_notMem_content s)
  · obtain ⟨r, rfl⟩ := hz.resolve_left h0
    rw [content_eq_self h0]
    exact cString_bytes hb h0

theorem zero_notMem_text (hp : t.Plain) : ∀ inList, 0 ∉ t.text inList := by
  induction t with
  | int v => exact fun _ => zero_notMem_intText _
  | sym name =>
    intro _ h0
    exact absurd (hp.2 0 h0) (by decide)
  | str s =>
    intro _
    exact zero_notMem_append (by decide)
      (zero_notMem_append (zero_notMem_content s) (by decide))
  | nil =>
    intro inList
    cases inList <;> decide
  | cons a d iha ihd =>
    intro inList
    exact zero_notMem_consText d.isCons (iha hp.1 false) (ihd hp.2 d.isCons)

/-- `write_` leaves the text of the tree in a buffer that is large enough. -/
theorem write_text (junk : ℕ → UInt8) (t : Node) : ∀ {w : Word} {fuel n : ℕ} (buf : List UInt8)
    (inList : Bool), Holds h t w → t.Plain → t.Fits inList n → t.calls ≤ fuel → n < 2 ^ 31 →
    n ≤ buf.length →
    ∃ buf', write junk h fuel w buf 0 inList n = .ok buf' ∧
      cStringAt buf' 0 = .ok (t.text inList) := by
  induction t with
  | int v =>
    intro w fuel n buf inList hh hp hfit hfuel hn hbuf
    obtain ⟨fuel, rfl⟩ : ∃ f, fuel = f + 1 := ⟨fuel - 1, by have := (Node.int v).calls_pos; omega⟩
    obtain ⟨i, rfl, htag, har⟩ := hh
    rw [Node.Fits] at hfit
    obtain ⟨buf₀, hlen₀, -, hw⟩ := write_cell junk h i fuel inList (show 0 < n by omega) hbuf
    rw [hw, writeCell, if_pos htag, har]
    exact snprintf_zero (by omega) (show (intText v.toInt).length < n - 1 by omega) (by omega)
      (zero_notMem_intText _)
  | sym name =>
    intro w fuel n buf inList hh hp hfit hfuel hn hbuf
    obtain ⟨fuel, rfl⟩ : ∃ f, fuel = f + 1 :=
      ⟨fuel - 1, by have := (Node.sym name).calls_pos; omega⟩
    obtain ⟨i, rfl, htag, hname⟩ := hh
    rw [Node.Fits] at hfit
    obtain ⟨buf₀, hlen₀, -, hw⟩ := write_cell junk h i fuel inList (show 0 < n by omega) hbuf
    rw [hw, writeCell, if_neg (by rw [htag]; decide), if_neg (by rw [htag]; decide), if_pos htag,
      hname]
    exact snprintf_zero (by omega) (show name.length < n - 1 by omega) (by omega)
      (zero_notMem_cString hname)
  | str s =>
    intro w fuel n buf inList hh hp hfit hfuel hn hbuf
    obtain ⟨fuel, rfl⟩ : ∃ f, fuel = f + 1 := ⟨fuel - 1, by have := (Node.str s).calls_pos; omega⟩
    obtain ⟨i, b, rest, rfl, htag, har, hdr, hsize, hb, hz⟩ := hh
    rw [Node.Fits] at hfit
    obtain ⟨buf₀, hlen₀, -, hw⟩ := write_cell junk h i fuel inList (show 0 < n by omega) hbuf
    have hshort : (content s).length ≤ s.length := (List.takeWhile_prefix _).length_le
    rw [hw, writeCell, if_neg (by rw [htag]; decide), if_neg (by rw [htag]; decide),
      if_neg (by rw [htag]; decide), if_pos htag]
    exact writeStr_print (by rw [har]; exact cString_content hb hz) hdr hshort hsize
      (zero_notMem_content s) (by omega) (by omega) (by omega)
  | nil =>
    intro w fuel n buf inList hh hp hfit hfuel hn hbuf
    obtain ⟨fuel, rfl⟩ : ∃ f, fuel = f + 1 := ⟨fuel - 1, by have := Node.nil.calls_pos; omega⟩
    obtain ⟨i, rfl, hi⟩ := hh
    rw [Node.Fits] at hfit
    obtain ⟨buf₀, hlen₀, hempty, hw⟩ := write_cell junk h i fuel inList (show 0 < n by omega) hbuf
    rw [hw, hi, writeCell, if_neg (by simp), if_pos rfl, writeCons, if_pos ⟨rfl, rfl⟩]
    cases inList with
    | true => exact ⟨buf₀, rfl, hempty⟩
    | false =>
      exact snprintf_zero (by omega) (show (Node.nil.text false).length < n - 1 by omega) (by omega)
        (zero_notMem_text hp false)
  | cons a d iha ihd =>
    intro w fuel n buf inList hh hp hfit hfuel hn hbuf
    rw [Node.calls] at hfuel
    obtain ⟨fuel, rfl⟩ : ∃ f, fuel = f + 1 := ⟨fuel - 1, by omega⟩
    obtain ⟨i, rfl, htag, ha, hd⟩ := hh
    rw [Node.Fits] at hfit
    obtain ⟨hlen, hfa, hfd⟩ := hfit
    obtain ⟨buf₀, hlen₀, -, hw⟩ := write_cell junk h i fuel inList (show 0 < n by omega) hbuf
    have htmp : tmpBufSize ≤ ((List.range tmpBufSize).map junk).length := by simp
    obtain ⟨tl, htl, htltext⟩ := iha ((List.range tmpBufSize).map junk) false ha hp.1 hfa
      (show a.calls ≤ fuel by omega) (by norm_num) htmp
    obtain ⟨tr, htr, htrtext⟩ := ihd ((List.range tmpBufSize).map junk) d.isCons hd hp.2 hfd
      (show d.calls ≤ fuel by omega) (by norm_num) htmp
    have hleft : writeTmp junk (write junk h fuel) (h.cells i).ar false = .ok (a.text false) := by
      rw [writeTmp, htl]
      exact htltext
    have hright : writeTmp junk (write junk h fuel) (h.cells i).dr d.isCons =
        .ok (d.text d.isCons) := by
      rw [writeTmp, htr]
      exact htrtext
    have hne : ¬ ((h.cells i).ar = .null ∧ (h.cells i).dr = .null) := by
      obtain ⟨j, hj⟩ := ha.cell
      rw [hj]
      simp
    rw [hw, writeCell, if_neg (by rw [htag]; decide), if_pos htag, writeCons, if_neg hne, hleft,
      ok_bind, hd.isConsPtr, ok_bind, hright, ok_bind]
    exact snprintf_zero (by omega) (show ((Node.cons a d).text inList).length < n - 1 by omega)
      (by omega) (zero_notMem_text (t := .cons a d) hp inList)

end Text

end Interim.Writer
