/-
`IPAddress` of net/base/net_address.cc: an address is checked as a text, constructed from the text and
printed. libc's `inet_addr` is a parameter.
-/
import Flconc.Http.Codec

namespace Flconc

open Wire Text Http

/-! ## The model -/

structure IPAddress where
  ip : Bytes
  port : UInt16
  /-- `m_addr.sin_addr.s_addr`. -/
  sAddr : UInt32
  /-- `m_addr.sin_port`, in the host's order. -/
  sinPort : UInt16
  deriving DecidableEq

namespace IPAddress

variable (inetAddr : Bytes → UInt32)

def INADDR_NONE : UInt32 := 0xFFFFFFFF

def COLON : UInt8 := 0x3A

def checkValidIPAddr (addr : Bytes) : Except Fault Bool :=
  match findFirstOf [COLON] addr with
  | none => .ok false
  | some i => do
    let port := atoi (cString (← substr addr (i + 1) (addr.length - i - 1)))
    if port < 0 ∨ port > 65536 then return false
    if inetAddr (cString (← substr addr 0 i)) = INADDR_NONE then return false
    return true

/-- The constructor. Without a `:` the port and the socket address stay what the memory holds. -/
def ofAddr (raw : IPAddress) (addr : Bytes) : Except Fault IPAddress :=
  match findFirstOf [COLON] addr with
  | none => .ok { raw with ip := [] }
  | some i => do
    let ip ← substr addr 0 i
    let port := UInt16.ofInt (atoi (cString (← substr addr (i + 1) (addr.length - i - 1))))
    return { ip := ip, port := port, sAddr := inetAddr (cString ip), sinPort := port }

def toString (a : IPAddress) : Bytes := a.ip ++ COLON :: Decimal.digits a.port.toNat

/-! ## The two parts of an address -/

/-- The text before the first `:`. -/
def front (addr : Bytes) : Bytes := addr.takeWhile (· ≠ COLON)

/-- The text behind the first `:`. -/
def behind (addr : Bytes) : Bytes := (addr.dropWhile (· ≠ COLON)).tail

section Parts

variable {ip rest : Bytes} (hip : COLON ∉ ip)
include hip

theorem before_colon : ∀ c ∈ ip, c ≠ COLON := fun _ hc h => hip (h ▸ hc)

theorem front_eq : front (ip ++ COLON :: rest) = ip := by
  unfold front
  rw [List.takeWhile_append_of_pos (by simpa using before_colon hip), List.takeWhile_cons_of_neg (by simp)]
  exact List.append_nil ip

theorem behind_eq : behind (ip ++ COLON :: rest) = rest := by
  unfold behind
  rw [List.dropWhile_append_of_pos (by simpa using before_colon hip), List.dropWhile_cons_of_neg (by simp)]
  rfl

theorem find_colon : findFirstOf [COLON] (ip ++ COLON :: rest) = some ip.length :=
  findFirstOf_behind (by simpa using before_colon hip) (List.mem_singleton_self COLON) rest

omit hip in
theorem substr_ip : substr (ip ++ COLON :: rest) 0 ip.length = .ok ip := by
  rw [substr_front, List.take_left]

omit hip in
theorem substr_port : substr (ip ++ COLON :: rest) (ip.length + 1)
    ((ip ++ COLON :: rest).length - ip.length - 1) = .ok rest := by
  have hl : (ip ++ COLON :: rest).length = ip.length + (rest.length + 1) := by
    rw [List.length_append, List.length_cons]
  rw [substr_back (by omega) (by omega), List.drop_append]
  simp

/-- What the constructor takes out of the text. -/
theorem ofAddr_eq (raw : IPAddress) : ofAddr inetAddr raw (ip ++ COLON :: rest) =
    .ok ⟨ip, UInt16.ofInt (atoi (cString rest)), inetAddr (cString ip),
      UInt16.ofInt (atoi (cString rest))⟩ := by
  unfold ofAddr
  rw [find_colon hip]
  dsimp only
  rw [substr_ip, substr_port]
  rfl

end Parts

/-- An accepted text has a `:`, and what `atoi` makes of the rest lies between 0 and 65536. -/
theorem checkValidIPAddr_true {addr : Bytes} (h : checkValidIPAddr inetAddr addr = .ok true) :
    ∃ ip rest, addr = ip ++ COLON :: rest ∧ COLON ∉ ip ∧ 0 ≤ atoi (cString rest) ∧
      atoi (cString rest) ≤ 65536 := by
  unfold checkValidIPAddr at h
  split at h
  · cases h
  · rename_i i hi
    obtain ⟨ip, c, rest, rfl, rfl, hc, hip⟩ := findFirstOf_split hi
    obtain rfl := List.mem_singleton.1 hc
    rw [substr_port, substr_ip] at h
    refine ⟨ip, rest, rfl, fun hmem => hip _ hmem (List.mem_singleton_self _), ?_⟩
    by_contra hport
    have hout : atoi (cString rest) < 0 ∨ atoi (cString rest) > 65536 := by omega
    simp only [bind, Except.bind, if_pos hout] at h
    cases h

/-- Cutting a text at its first zero byte keeps the number in front. -/
theorem leads_cString {s : Bytes} {n : Int} (h : Leads s n) : Leads (cString s) n := by
  obtain ⟨front, sign, digits, back, rfl, hfront, hsign, hne, hdigits, hback, hn⟩ := h
  refine ⟨front, sign, digits, cString back, ?_, hfront, hsign, hne, hdigits, ?_, hn⟩
  · have hpos : ∀ c ∈ front ++ (sign ++ digits), c ≠ 0 := by
      intro c hc h0
      subst h0
      rcases List.mem_append.1 hc with hc | hc
      · exact absurd (hfront 0 hc) (by decide)
      · rcases List.mem_append.1 hc with hc | hc
        · rcases hsign with rfl | rfl | rfl <;> simp at hc
        · exact absurd (hdigits 0 hc) (by decide)
    unfold cString
    calc (front ++ (sign ++ (digits ++ back))).takeWhile (· ≠ 0)
        = ((front ++ (sign ++ digits)) ++ back).takeWhile (· ≠ 0) := by simp only [List.append_assoc]
      _ = (front ++ (sign ++ digits)) ++ back.takeWhile (· ≠ 0) :=
          List.takeWhile_append_of_pos (by simpa using hpos)
      _ = front ++ (sign ++ (digits ++ back.takeWhile (· ≠ 0))) := by simp only [List.append_assoc]
  · cases back with
    | nil => exact hback
    | cons c back =>
      intro d hd
      refine hback d ?_
      by_cases hc : c = 0
      · subst hc
        cases hd
      · rwa [show cString (c :: back) = c :: cString back from List.takeWhile_cons_of_pos (by simpa using hc)] at hd

theorem atoi_cString {s : Bytes} {n : Int} (h : Leads s n) (hn : InInt32 n) : atoi (cString s) = n := by
  obtain ⟨h1, h2⟩ := hn
  rw [atoi_of_leads (leads_cString h), min_eq_right (by omega), max_eq_right (by omega)]
  exact wrap32_of_inInt32 ⟨h1, h2⟩

theorem leads_digits (n : Nat) : Leads (Decimal.digits n) n :=
  ⟨[], [], Decimal.digits n, [], by simp, by simp, .inl rfl, Decimal.digits_ne_nil n,
    Decimal.digits_isDigit n, by simp, by rw [if_neg (by decide), Decimal.value_digits]⟩

/-! ## The port -/

theorem toNat_ofInt {x : Int} (h0 : 0 ≤ x) (h1 : x ≤ 65535) : ((UInt16.ofInt x).toNat : Int) = x := by
  have hx : UInt16.ofInt x = UInt16.ofNat (x % 2 ^ 16).toNat := rfl
  rw [hx, UInt16.toNat_ofNat']
  omega

/-- The constructed address is the one that is written. -/
structure Used (raw : IPAddress) (addr : Bytes) (a : IPAddress) : Prop where
  port : ∃ n, Leads (behind addr) n ∧ (a.port.toNat : Int) = n ∧ 0 ≤ n ∧ n ≤ 65535
  text : a.toString = front addr ++ COLON :: Decimal.digits a.port.toNat
  again : ∃ b, ofAddr inetAddr raw a.toString = .ok b ∧ b.ip = a.ip ∧ b.port = a.port

/-- A printed address is read again. -/
theorem ofAddr_toString (raw a : IPAddress) (hip : COLON ∉ a.ip) :
    ∃ b, ofAddr inetAddr raw a.toString = .ok b ∧ b.ip = a.ip ∧ b.port = a.port := by
  have hlt := a.port.toNat_lt
  have hport : atoi (cString (Decimal.digits a.port.toNat)) = a.port.toNat :=
    atoi_cString (leads_digits _) ⟨by omega, by omega⟩
  refine ⟨_, ofAddr_eq inetAddr hip raw, rfl, ?_⟩
  rw [hport]
  exact UInt16.toNat.inj (Int.ofNat.inj (toNat_ofInt (by omega) (by omega)))

/-- An accepted address is the one used exactly where a number is written behind the first `:`, which
an `int` holds and which is not 65536. -/
theorem used_iff (raw : IPAddress) {addr : Bytes} (h : checkValidIPAddr inetAddr addr = .ok true) :
    (∃ a, ofAddr inetAddr raw addr = .ok a ∧ Used inetAddr raw addr a) ↔
      ∃ n, Leads (behind addr) n ∧ InInt32 n ∧ n ≠ 65536 := by
  obtain ⟨ip, rest, rfl, hip, h0, h1⟩ := checkValidIPAddr_true inetAddr h
  constructor
  · rintro ⟨a, -, hused⟩
    obtain ⟨n, hn, -, hn0, hn1⟩ := hused.port
    exact ⟨n, hn, ⟨by omega, by omega⟩, by omega⟩
  · rintro ⟨n, hn, hint, hne⟩
    rw [behind_eq hip] at hn
    have hatoi := atoi_cString hn hint
    rw [hatoi] at h0 h1
    have hport := toNat_ofInt h0 (show n ≤ 65535 by omega)
    refine ⟨_, ofAddr_eq inetAddr hip raw, ?_, ?_, ofAddr_toString inetAddr raw _ hip⟩
    · rw [behind_eq hip, hatoi]
      exact ⟨n, hn, hport, h0, by omega⟩
    · rw [front_eq hip]
      rfl

theorem used_iff_local :
    (∃ a, ofAddr (fun _ => 0x0100007F) ⟨[], 0, 0, 0⟩ (ascii "127.0.0.1:80") = .ok a ∧
        Used (fun _ => 0x0100007F) ⟨[], 0, 0, 0⟩ (ascii "127.0.0.1:80") a) ↔
      ∃ n, Leads (behind (ascii "127.0.0.1:80")) n ∧ InInt32 n ∧ n ≠ 65536 :=
  used_iff (fun _ => 0x0100007F) ⟨[], 0, 0, 0⟩ rfl

/-- Port 65536 is accepted, and used as port 0. -/
theorem port_65536_truncated :
    checkValidIPAddr (fun _ => 0x0100007F) (ascii "127.0.0.1:65536") = .ok true ∧
      (∃ a, ofAddr (fun _ => 0x0100007F) ⟨[], 0, 0, 0⟩ (ascii "127.0.0.1:65536") = .ok a ∧ a.port = 0 ∧
        a.toString = ascii "127.0.0.1:0") ∧
      ¬ ∃ a, ofAddr (fun _ => 0x0100007F) ⟨[], 0, 0, 0⟩ (ascii "127.0.0.1:65536") = .ok a ∧
        Used (fun _ => 0x0100007F) ⟨[], 0, 0, 0⟩ (ascii "127.0.0.1:65536") a := by
  refine ⟨rfl, ⟨_, rfl, rfl, rfl⟩, ?_⟩
  rintro ⟨a, ha, hused⟩
  obtain ⟨n, hn, hport, h0, h1⟩ := hused.port
  obtain rfl := Except.ok.inj ha
  have hzero : n = 0 := hport.symm
  have hread := atoi_cString hn ⟨by omega, by omega⟩
  rw [hzero] at hread
  exact absurd hread (by decide +kernel)

end IPAddress

end Flconc
