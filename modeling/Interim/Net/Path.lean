import Interim.Net.Send
import Interim.Reader.Layout

/-!
# TCP paths

Model of `ethfs_open` (`devices/rpi2/dev_ethernet.c`, lines 31–64): it scans an
address and a port from a path and connects. The two loops share their index;
the octets are `char`s and wrap around, and so does the port here. `char` is
unsigned on this target.

Main result: `ethfsOpen_path`. A well-formed path connects to the address and
the port it spells, with any number of leading zeros; and no path under
`/net/tcp/` makes a loop write beyond the four octets or read beyond the string.
-/

namespace Interim.Net

open Reader (decimal IsDigits isDigit isDigit_iff)

/-! ## Scanning -/

def slash : UInt8 := 47
def dot : UInt8 := 46

/-- `path[i]`, which must be a byte of the string. -/
def charAt (path : List UInt8) (i : ℕ) : Except Stop UInt8 :=
  if h : i < path.length then .ok (path.get ⟨i, h⟩) else .error .fault

/-- `ip[j]=ip[j]*10+(path[i]-'0')`. -/
def addDigit (ip : Ip) (j : ℕ) (c : UInt8) : Except Stop Ip :=
  if h : j < 4 then .ok (ip.set j (ip[j] * 10 + (c - 48))) else .error .fault

/-- The loop over the octets (lines 41–49), for at most `n` rounds: where it ends,
    and the octets. -/
def scanIp (path : List UInt8) : ℕ → ℕ → ℕ → Ip → Except Stop (ℕ × Ip)
  | 0, _, _, _ => .error .fuel
  | n + 1, i, j, ip =>
    if i < path.length ∧ j < 4 then do
      let c ← charAt path i
      if c = slash then .ok (i, ip)
      else if c = dot then scanIp path n (i + 1) (j + 1) ip
      else do
        let ip ← addDigit ip j c
        scanIp path n (i + 1) j ip
    else .ok (i, ip)

/-- The loop over the port (lines 53–56). -/
def scanPort (path : List UInt8) : ℕ → ℕ → BitVec 32 → Except Stop (BitVec 32)
  | 0, _, _ => .error .fuel
  | n + 1, i, port =>
    if i < path.length then do
      let c ← charAt path i
      if c = slash then .ok port
      else scanPort path n (i + 1) (port * 10 + (c.toBitVec.setWidth 32 - 48))
    else .ok port

/-- What the two loops make of a path. Each round moves `i` on, so there are
    no more rounds than bytes. -/
def tcpAddress (path : List UInt8) : Except Stop (Ip × BitVec 32) := do
  let (i, ip) ← scanIp path (path.length + 1) 9 0 #v[0, 0, 0, 0]
  let port ← scanPort path (path.length + 1) (i + 1) 0
  .ok (ip, port)

/-- `/net/tcp/`. -/
def tcpRoot : List UInt8 := [47, 110, 101, 116, 47, 116, 99, 112, 47]

/-- `ethfs_open(path_cell)` (lines 31–64) for the string in the cell, without its
    NUL. -/
def ethfsOpen (w n : ℕ) (c : Connection) (path : List UInt8) : Except Stop Connection :=
  if (path.drop 4).take 5 = tcpRoot.drop 4 then do
    let (ip, port) ← tcpAddress path
    connectTcp w n c ip port
  else .ok c

/-! ## Any path -/

theorem charAt_eq {path : List UInt8} {i : ℕ} {c : UInt8} {rest : List UInt8}
    (hpath : path.drop i = c :: rest) : i < path.length ∧ charAt path i = .ok c ∧
      path.drop (i + 1) = rest := by
  have hi : i < path.length := by
    by_contra hlen
    rw [List.drop_eq_nil_of_le (by omega)] at hpath
    exact absurd hpath (by simp)
  rw [List.drop_eq_getElem_cons hi, List.cons.injEq] at hpath
  obtain ⟨rfl, hrest⟩ := hpath
  exact ⟨hi, dif_pos hi, hrest⟩

theorem scanIp_total {path : List UInt8} {n i : ℕ} (hn : path.length - i < n) (j : ℕ) (ip : Ip) :
    ∃ r, scanIp path n i j ip = .ok r := by
  induction n generalizing i j ip with
  | zero => exact absurd hn (by omega)
  | succ n ih =>
    unfold scanIp
    by_cases hi : i < path.length ∧ j < 4
    · have hchar : charAt path i = .ok (path.get ⟨i, hi.1⟩) := dif_pos hi.1
      have hdigit : ∀ c, addDigit ip j c = .ok (ip.set j (ip[j] * 10 + (c - 48))) :=
        fun c => dif_pos hi.2
      rw [if_pos hi, hchar, ok_bind]
      split
      · exact ⟨_, rfl⟩
      split
      · exact ih (by omega) _ _
      · rw [hdigit, ok_bind]
        exact ih (by omega) _ _
    · rw [if_neg hi]
      exact ⟨_, rfl⟩

theorem scanPort_total {path : List UInt8} {n i : ℕ} (hn : path.length - i < n)
    (port : BitVec 32) : ∃ r, scanPort path n i port = .ok r := by
  induction n generalizing i port with
  | zero => exact absurd hn (by omega)
  | succ n ih =>
    unfold scanPort
    by_cases hi : i < path.length
    · have hchar : charAt path i = .ok (path.get ⟨i, hi⟩) := dif_pos hi
      rw [if_pos hi, hchar, ok_bind]
      split
      · exact ⟨_, rfl⟩
      · exact ih (by omega) _
    · rw [if_neg hi]
      exact ⟨_, rfl⟩

/-- No path makes a loop write beyond the octets or read beyond the string. -/
theorem tcpAddress_total (path : List UInt8) : ∃ ip port, tcpAddress path = .ok (ip, port) := by
  obtain ⟨⟨i, ip⟩, hip⟩ :=
    @scanIp_total path (path.length + 1) 9 (by omega) 0 #v[0, 0, 0, 0]
  obtain ⟨port, hport⟩ := @scanPort_total path (path.length + 1) (i + 1) (by omega) 0
  refine ⟨ip, port, ?_⟩
  unfold tcpAddress
  rw [hip, ok_bind]
  dsimp only
  rw [hport, ok_bind]

/-! ## Well-formed paths -/

theorem digit_ne {c : UInt8} (hc : isDigit c = true) : c ≠ slash ∧ c ≠ dot := by
  rw [isDigit_iff] at hc
  constructor
  · rintro rfl
    exact absurd hc.1 (by decide)
  · rintro rfl
    exact absurd hc.1 (by decide)

/-- The octet the loop has after the digits `ds`, from `v` on. -/
def octet (v : UInt8) (ds : List UInt8) : UInt8 := ds.foldl (fun v c => v * 10 + (c - 48)) v

/-- The port the loop has after the digits `ds`, from `v` on. -/
def portOf (v : BitVec 32) (ds : List UInt8) : BitVec 32 :=
  ds.foldl (fun v c => v * 10 + (c.toBitVec.setWidth 32 - 48)) v

theorem octet_eq {ds : List UInt8} (hds : ∀ c ∈ ds, isDigit c = true) (v : ℕ) :
    octet (UInt8.ofNat v) ds = UInt8.ofNat (ds.foldl (fun n c => n * 10 + (c.toNat - 48)) v) := by
  induction ds generalizing v with
  | nil => rfl
  | cons c ds ih =>
    have hc := isDigit_iff.mp (hds c List.mem_cons_self)
    have hstep : UInt8.ofNat v * 10 + (c - 48) = UInt8.ofNat (v * 10 + (c.toNat - 48)) := by
      have hsub : c - 48 = UInt8.ofNat (c.toNat - 48) := by
        have hle : (48 : UInt8) ≤ c := UInt8.le_iff_toNat_le.mpr hc.1
        rw [← UInt8.toNat_inj, UInt8.toNat_sub_of_le _ _ hle, UInt8.toNat_ofNat']
        exact (Nat.mod_eq_of_lt (by omega)).symm
      rw [hsub, UInt8.ofNat_add, UInt8.ofNat_mul]
      rfl
    change octet (UInt8.ofNat v * 10 + (c - 48)) ds = _
    rw [hstep]
    exact ih (fun d hd => hds d (List.mem_cons_of_mem _ hd)) _

theorem portOf_eq {ds : List UInt8} (hds : ∀ c ∈ ds, isDigit c = true) (v : ℕ) :
    portOf (BitVec.ofNat 32 v) ds =
      BitVec.ofNat 32 (ds.foldl (fun n c => n * 10 + (c.toNat - 48)) v) := by
  induction ds generalizing v with
  | nil => rfl
  | cons c ds ih =>
    have hc := isDigit_iff.mp (hds c List.mem_cons_self)
    have hstep : BitVec.ofNat 32 v * 10 + (c.toBitVec.setWidth 32 - 48) =
        BitVec.ofNat 32 (v * 10 + (c.toNat - 48)) := by
      have hsub : c.toBitVec.setWidth 32 - 48 = BitVec.ofNat 32 (c.toNat - 48) := by
        apply BitVec.eq_of_toNat_eq
        rw [BitVec.toNat_sub, BitVec.toNat_setWidth, BitVec.toNat_ofNat]
        change (2 ^ 32 - 48 + c.toNat % 2 ^ 32) % 2 ^ 32 = _
        omega
      rw [hsub, BitVec.ofNat_add, BitVec.ofNat_mul]
      rfl
    change portOf (BitVec.ofNat 32 v * 10 + (c.toBitVec.setWidth 32 - 48)) ds = _
    rw [hstep]
    exact ih (fun d hd => hds d (List.mem_cons_of_mem _ hd)) _

/-- The digits of one octet are scanned into it. -/
theorem scanIp_digits {path ds rest : List UInt8} (hds : ∀ c ∈ ds, isDigit c = true) {n i j : ℕ}
    (hj : j < 4) (hpath : path.drop i = ds ++ rest) (ip : Ip) :
    scanIp path (n + ds.length) i j ip =
      scanIp path n (i + ds.length) j (ip.set j (octet ip[j] ds)) := by
  induction ds generalizing i ip with
  | nil =>
    have hset : ip.set j (octet ip[j] []) = ip := by
      change ip.set j ip[j] = ip
      simp
    rw [hset]
    rfl
  | cons c ds ih =>
    obtain ⟨hi, hchar, hrest⟩ := charAt_eq hpath
    obtain ⟨hslash, hdot⟩ := digit_ne (hds c List.mem_cons_self)
    have hdigit : addDigit ip j c = .ok (ip.set j (ip[j] * 10 + (c - 48))) := dif_pos hj
    have hset : (ip.set j (ip[j] * 10 + (c - 48))).set j
        (octet (ip.set j (ip[j] * 10 + (c - 48)))[j] ds) = ip.set j (octet ip[j] (c :: ds)) := by
      simp [octet]
    rw [List.length_cons, ← Nat.add_assoc, scanIp, if_pos ⟨hi, hj⟩, hchar, ok_bind,
      if_neg hslash, if_neg hdot, hdigit, ok_bind,
      ih (fun d hd => hds d (List.mem_cons_of_mem _ hd)) hrest, hset, Nat.add_assoc, Nat.add_comm 1]

/-- The dot after an octet moves on to the next one. -/
theorem scanIp_dot {path rest : List UInt8} {n i j : ℕ} (hj : j < 4)
    (hpath : path.drop i = dot :: rest) (ip : Ip) :
    scanIp path (n + 1) i j ip = scanIp path n (i + 1) (j + 1) ip := by
  obtain ⟨hi, hchar, -⟩ := charAt_eq hpath
  rw [scanIp, if_pos ⟨hi, hj⟩, hchar, ok_bind, if_neg (by decide), if_pos rfl]

/-- The slash ends the address. -/
theorem scanIp_slash {path rest : List UInt8} {n i j : ℕ} (hj : j < 4)
    (hpath : path.drop i = slash :: rest) (ip : Ip) :
    scanIp path (n + 1) i j ip = .ok (i, ip) := by
  obtain ⟨hi, hchar, -⟩ := charAt_eq hpath
  rw [scanIp, if_pos ⟨hi, hj⟩, hchar, ok_bind, if_pos rfl]

theorem scanPort_digits {path ds rest : List UInt8} (hds : ∀ c ∈ ds, isDigit c = true) {n i : ℕ}
    (hpath : path.drop i = ds ++ rest) (port : BitVec 32) :
    scanPort path (n + ds.length) i port = scanPort path n (i + ds.length) (portOf port ds) := by
  induction ds generalizing i port with
  | nil => rfl
  | cons c ds ih =>
    obtain ⟨hi, hchar, hrest⟩ := charAt_eq hpath
    obtain ⟨hslash, -⟩ := digit_ne (hds c List.mem_cons_self)
    rw [List.length_cons, ← Nat.add_assoc, scanPort, if_pos hi, hchar, ok_bind, if_neg hslash,
      ih (fun d hd => hds d (List.mem_cons_of_mem _ hd)) hrest, Nat.add_assoc, Nat.add_comm 1]
    rfl

/-- The port ends at a slash, or with the string. -/
theorem scanPort_end {path rest : List UInt8} {n i : ℕ} (hpath : path.drop i = rest)
    (hrest : ∀ c cs, rest = c :: cs → c = slash) (port : BitVec 32) :
    scanPort path (n + 1) i port = .ok port := by
  cases rest with
  | nil =>
    have hi : ¬ i < path.length := by
      have hlen := List.length_eq_zero_iff.mpr hpath
      rw [List.length_drop] at hlen
      omega
    rw [scanPort, if_neg hi]
  | cons c cs =>
    obtain ⟨hi, hchar, -⟩ := charAt_eq hpath
    rw [scanPort, if_pos hi, hchar, ok_bind, if_pos (hrest c cs rfl)]

/-- A numeral in decimal, with any number of leading zeros. -/
def Spells (t : List UInt8) (v : ℕ) : Prop := IsDigits t ∧ decimal t = v

theorem octet_spells {t : List UInt8} {o : UInt8} (ht : Spells t o.toNat) : octet 0 t = o := by
  obtain ⟨⟨-, hds⟩, hv⟩ := ht
  have h := octet_eq hds 0
  unfold decimal at hv
  rw [hv, UInt8.ofNat_toNat] at h
  exact h

theorem portOf_spells {t : List UInt8} {port : ℕ} (ht : Spells t port) :
    portOf 0 t = BitVec.ofNat 32 port := by
  obtain ⟨⟨-, hds⟩, hv⟩ := ht
  have h := portOf_eq hds 0
  unfold decimal at hv
  rw [hv] at h
  exact h

theorem drop_next {path a b : List UInt8} {i : ℕ} (h : path.drop i = a ++ b) :
    path.drop (i + a.length) = b := by
  rw [← List.drop_drop, h, List.drop_left]

/-- `/net/tcp/o1.o2.o3.o4/port`, and what may follow it. -/
def tcpPath (t₁ t₂ t₃ t₄ tp rest : List UInt8) : List UInt8 :=
  tcpRoot ++ (t₁ ++ dot :: (t₂ ++ dot :: (t₃ ++ dot :: (t₄ ++ slash :: (tp ++ rest)))))

theorem tcpAddress_path {o₁ o₂ o₃ o₄ : UInt8} {port : ℕ} {t₁ t₂ t₃ t₄ tp rest : List UInt8}
    (h₁ : Spells t₁ o₁.toNat) (h₂ : Spells t₂ o₂.toNat) (h₃ : Spells t₃ o₃.toNat)
    (h₄ : Spells t₄ o₄.toNat) (hp : Spells tp port) (hrest : ∀ c cs, rest = c :: cs → c = slash) :
    tcpAddress (tcpPath t₁ t₂ t₃ t₄ tp rest) =
      .ok (#v[o₁, o₂, o₃, o₄], BitVec.ofNat 32 port) := by
  set path := tcpPath t₁ t₂ t₃ t₄ tp rest with hpath
  have hd₁ : path.drop 9 = t₁ ++ dot :: _ := rfl
  have hdot₁ := drop_next hd₁
  have hd₂ := (charAt_eq hdot₁).2.2
  have hdot₂ := drop_next hd₂
  have hd₃ := (charAt_eq hdot₂).2.2
  have hdot₃ := drop_next hd₃
  have hd₄ := (charAt_eq hdot₃).2.2
  have hslash := drop_next hd₄
  have hdp := (charAt_eq hslash).2.2
  have hend := drop_next hdp
  have hlen : path.length = 9 + (t₁.length + (t₂.length + (t₃.length + (t₄.length +
      (tp.length + rest.length + 1) + 1) + 1) + 1)) := by
    simp [hpath, tcpPath, tcpRoot]
    omega
  have hip : scanIp path (path.length + 1) 9 0 #v[0, 0, 0, 0] =
      .ok (9 + t₁.length + 1 + t₂.length + 1 + t₃.length + 1 + t₄.length, #v[o₁, o₂, o₃, o₄]) := by
    rw [show path.length + 1 = 10 + tp.length + rest.length + 1 + t₄.length + 1 + t₃.length + 1 +
      t₂.length + 1 + t₁.length by omega]
    rw [scanIp_digits h₁.1.2 (by norm_num) hd₁, scanIp_dot (by norm_num) hdot₁,
      scanIp_digits h₂.1.2 (by norm_num) hd₂, scanIp_dot (by norm_num) hdot₂,
      scanIp_digits h₃.1.2 (by norm_num) hd₃, scanIp_dot (by norm_num) hdot₃,
      scanIp_digits h₄.1.2 (by norm_num) hd₄, scanIp_slash (by norm_num) hslash]
    have ho₁ := octet_spells h₁
    have ho₂ := octet_spells h₂
    have ho₃ := octet_spells h₃
    have ho₄ := octet_spells h₄
    simp [ho₁, ho₂, ho₃, ho₄]
  have hport : scanPort path (path.length + 1) (9 + t₁.length + 1 + t₂.length + 1 + t₃.length + 1 +
      t₄.length + 1) 0 = .ok (BitVec.ofNat 32 port) := by
    rw [show path.length + 1 = 9 + t₁.length + t₂.length + t₃.length + t₄.length + rest.length +
      4 + 1 + tp.length by omega]
    rw [scanPort_digits hp.1.2 hdp, scanPort_end hend hrest, portOf_spells hp]
  unfold tcpAddress
  rw [hip, ok_bind]
  dsimp only
  rw [hport, ok_bind]

/-- **TCP paths.** A path of four octets and a port, in decimal with any number
    of leading zeros, calls `connect_tcp` with exactly these; and on every path
    under `/net/tcp/` both loops stay within the octets and within the string. -/
theorem ethfsOpen_path (w n : ℕ) (c : Connection) :
    (∀ (o₁ o₂ o₃ o₄ : UInt8) (port : ℕ) (t₁ t₂ t₃ t₄ tp rest : List UInt8), port ≤ 65535 →
      Spells t₁ o₁.toNat → Spells t₂ o₂.toNat → Spells t₃ o₃.toNat → Spells t₄ o₄.toNat →
      Spells tp port → (rest = [] ∨ ∃ more, rest = slash :: more) →
      ethfsOpen w n c (tcpPath t₁ t₂ t₃ t₄ tp rest) =
        connectTcp w n c #v[o₁, o₂, o₃, o₄] (BitVec.ofNat 32 port)) ∧
    (∀ path, tcpRoot <+: path → ∃ ip port, tcpAddress path = .ok (ip, port) ∧
      ethfsOpen w n c path = connectTcp w n c ip port) := by
  have hopen : ∀ {path ip port}, tcpRoot <+: path → tcpAddress path = .ok (ip, port) →
      ethfsOpen w n c path = connectTcp w n c ip port := by
    rintro path ip port ⟨more, rfl⟩ haddr
    have hroot : ((tcpRoot ++ more).drop 4).take 5 = tcpRoot.drop 4 := rfl
    unfold ethfsOpen
    rw [if_pos hroot, haddr, ok_bind]
  constructor
  · rintro o₁ o₂ o₃ o₄ port t₁ t₂ t₃ t₄ tp rest - h₁ h₂ h₃ h₄ hp hrest
    apply hopen (List.prefix_append _ _)
    apply tcpAddress_path h₁ h₂ h₃ h₄ hp
    rintro c cs rfl
    obtain hnil | ⟨more, hmore⟩ := hrest
    · exact absurd hnil (by simp)
    · exact (List.cons.inj hmore).1
  · intro path hroot
    obtain ⟨ip, port, haddr⟩ := tcpAddress_total path
    exact ⟨ip, port, haddr, hopen hroot haddr⟩

/-- `/net/tcp/010.0.0.1/0080/x`. -/
theorem ethfsOpen_leadingZeros :
    ethfsOpen 32 3 Connection.start
        (tcpPath [48, 49, 48] [48] [48] [49] [48, 48, 56, 48] [47, 120]) =
      connectTcp 32 3 Connection.start #v[10, 0, 0, 1] 80 :=
  (ethfsOpen_path 32 3 Connection.start).1 10 0 0 1 80 _ _ _ _ _ _ (by decide)
    ⟨Reader.isDigits_of_all (by simp) rfl, rfl⟩ ⟨Reader.isDigits_of_all (by simp) rfl, rfl⟩
    ⟨Reader.isDigits_of_all (by simp) rfl, rfl⟩ ⟨Reader.isDigits_of_all (by simp) rfl, rfl⟩
    ⟨Reader.isDigits_of_all (by simp) rfl, rfl⟩ (.inr ⟨[120], rfl⟩)

end Interim.Net
