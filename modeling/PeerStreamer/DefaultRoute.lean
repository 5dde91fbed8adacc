import PeerStreamer.NetHelpers

/-!
# The interface of the default route

The loop over the routing table never stops at the default route, as `strcpy` does not return NULL.
So it ends with the interface of the last route, whatever its destination is.
-/

namespace PeerStreamer.NetHelpers

open CString

/-! ## Routing tables -/

/-- A line of the file, without its newline. -/
structure IsLine (line : List UInt8) : Prop where
  no_newline : 10 ∉ line
  no_nul : 0 ∉ line
  short : line.length < 127

/-- A route: the interface, a tab, the destination and the rest of the line. -/
structure Route where
  iface : List UInt8
  dst : List UInt8
  rest : List UInt8
  deriving DecidableEq

def Route.text (r : Route) : List UInt8 := r.iface ++ 9 :: (r.dst ++ r.rest)

/-- The line of a route; the interface and the destination are words. -/
structure Route.Valid (r : Route) : Prop where
  isLine : IsLine r.text
  iface_ne : r.iface ≠ []
  iface_word : ∀ c ∈ r.iface, isspace c = false
  dst_ne : r.dst ≠ []
  dst_word : ∀ c ∈ r.dst, isspace c = false
  rest_space : ∀ c ∈ r.rest.head?, isspace c = true

/-- The header and the routes. -/
structure Table where
  header : List UInt8
  routes : List Route
  header_isLine : IsLine header
  valid : ∀ r ∈ routes, r.Valid

def fileOf (lines : List (List UInt8)) : List UInt8 := lines.flatMap fun line => line ++ [10]

namespace Table

def lines (t : Table) : List (List UInt8) := t.header :: t.routes.map Route.text

/-- The first route to the destination 00000000. -/
def defaultRoute (t : Table) : Option Route := t.routes.find? fun r => r.dst = bytes "00000000"

end Table

/-- The first two words of the line fit in their arrays. -/
def Fits (line : List UInt8) : Prop :=
  ∀ w rest, word line = some (w, rest) →
    w.length < IFNAMSIZ ∧ ∀ w' rest', word rest = some (w', rest') → w'.length < 32

theorem fits_iff {line : List UInt8} : Fits line ↔ (word line).all (fun p =>
    decide (p.1.length < IFNAMSIZ) && (word p.2).all fun p => decide (p.1.length < 32)) = true := by
  unfold Fits
  cases word line with
  | none => simp
  | some p =>
    obtain ⟨w, rest⟩ := p
    rcases hw : word rest with _ | ⟨w', rest'⟩
    · simp +contextual [hw]
    · simp +contextual [hw]

instance (line : List UInt8) : Decidable (Fits line) := decidable_of_iff' _ fits_iff

/-- The words that the loop stores fit in their arrays. -/
structure Table.NamesFit (t : Table) : Prop where
  header : Fits t.header
  route : ∀ r ∈ t.routes, r.iface.length < IFNAMSIZ ∧ r.dst.length < 32

/-! ## One line -/

variable {line iface rest file ifc : List UInt8} {r : Route} {t : Table} {fuel : ℕ}
  {lines : List (List UInt8)}

theorem Route.Valid.word_text (h : r.Valid) :
    word r.text = some (r.iface, 9 :: (r.dst ++ r.rest)) :=
  word_append h.iface_ne h.iface_word fun c hc => by
    obtain rfl := Option.some.inj hc
    rfl

theorem Route.Valid.word_dst (h : r.Valid) :
    word (9 :: (r.dst ++ r.rest)) = some (r.dst, r.rest) := by
  rw [word_space (by decide), word_append h.dst_ne h.dst_word h.rest_space]

theorem Route.Valid.fits_text (h : r.Valid) :
    Fits r.text ↔ r.iface.length < IFNAMSIZ ∧ r.dst.length < 32 := by
  unfold Fits
  simp only [h.word_text, Option.some.injEq, Prod.mk.injEq]
  constructor
  · intro hfits
    obtain ⟨hiface, hdst⟩ := hfits _ _ ⟨rfl, rfl⟩
    exact ⟨hiface, hdst _ _ h.word_dst⟩
  · rintro ⟨hiface, hdst⟩ w rest ⟨rfl, rfl⟩
    refine ⟨hiface, fun w' rest' hw' => ?_⟩
    rw [h.word_dst] at hw'
    obtain ⟨rfl, rfl⟩ := Prod.mk.inj (Option.some.inj hw')
    exact hdst

/-- The interface that a line names. -/
def scan (iface line : List UInt8) : Except Fault (List UInt8) := Prod.snd <$> sscanf line iface

theorem sscanf_newline (line iface : List UInt8) :
    sscanf (line ++ [10]) iface = sscanf line iface := by
  unfold sscanf
  rw [word_newline]
  cases hw : word line with
  | none => rfl
  | some p =>
    obtain ⟨w, rest⟩ := p
    simp only [Option.map_some, word_newline]
    cases word rest <;> rfl

theorem scan_newline (line iface : List UInt8) : scan iface (line ++ [10]) = scan iface line := by
  rw [scan, sscanf_newline, scan]

theorem scan_of_fits (h : Fits line) (iface : List UInt8) :
    scan iface line = .ok (((word line).map Prod.fst).getD iface) := by
  unfold scan sscanf
  cases hw : word line with
  | none => rfl
  | some p =>
    obtain ⟨w, rest⟩ := p
    obtain ⟨hlen, hdst⟩ := h w rest hw
    have hiface : storeWord IFNAMSIZ w = .ok w := if_pos hlen
    dsimp only
    rw [hiface]
    cases hw' : word rest with
    | none => rfl
    | some p' =>
      obtain ⟨w', rest'⟩ := p'
      have hdst : storeWord 32 w' = .ok w' := if_pos (hdst w' rest' hw')
      simp only [bind, Except.bind, hdst]
      rfl

theorem scan_of_not_fits (h : ¬ Fits line) (iface : List UInt8) :
    scan iface line = .error .outOfBounds := by
  unfold Fits at h
  push Not at h
  obtain ⟨w, rest, hw, hlong⟩ := h
  unfold scan sscanf
  rw [hw]
  dsimp only
  by_cases hlen : w.length < IFNAMSIZ
  · obtain ⟨w', rest', hw', hdst⟩ := hlong hlen
    have hiface : storeWord IFNAMSIZ w = .ok w := if_pos hlen
    have hdst : storeWord 32 w' = .error .outOfBounds := if_neg (Nat.not_lt.2 hdst)
    rw [hiface, hw']
    simp only [bind, Except.bind, hdst]
    rfl
  · have hiface : storeWord IFNAMSIZ w = .error .outOfBounds := if_neg hlen
    rw [hiface]
    rfl

/-- `!strcpy(dst, "00000000")` is false, so the loop does not stop at any line. -/
theorem routeLoop_scan (hfgets : fgets 127 file = some (line, rest)) (heof : feof 127 file = false)
    (hnul : 0 ∉ line) (fuel : ℕ) (iface : List UInt8) :
    routeLoop ifc (fuel + 1) iface file =
      scan iface line >>= fun i => routeLoop ifc fuel i rest := by
  have hcopy : strcpy 32 (bytes "00000000") = .ok (some (bytes "00000000")) := by decide +kernel
  rw [routeLoop, hfgets, scan]
  simp only [heof, ofBuffer_eq hnul, hcopy]
  cases hscan : sscanf line iface with
  | error e => rfl
  | ok p =>
    obtain ⟨n, i⟩ := p
    by_cases hn : n = 2
    · simp [hn, bind, Except.bind, Functor.map, Except.map]
    · simp [hn, bind, Except.bind, Functor.map, Except.map]

/-! ## All lines -/

/-- The induction is on the lines.  A line of 126 bytes takes two rounds, the second for its
newline. -/
theorem routeLoop_fileOf (h : ∀ line ∈ lines, IsLine line) (hfuel : (fileOf lines).length < fuel) :
    routeLoop ifc fuel iface (fileOf lines) = lines.foldlM scan iface := by
  induction lines generalizing iface fuel with
  | nil =>
    obtain ⟨fuel, rfl⟩ := Nat.exists_eq_add_of_lt hfuel
    rfl
  | cons line lines ih =>
    obtain ⟨hline, hlines⟩ := List.forall_mem_cons.1 h
    have hfile : fileOf (line :: lines) = line ++ 10 :: fileOf lines := by
      rw [fileOf, List.flatMap_cons, List.append_assoc]
      rfl
    have hlen : (fileOf (line :: lines)).length = line.length + ((fileOf lines).length + 1) := by
      rw [hfile, List.length_append, List.length_cons]
    rw [List.foldlM_cons, hfile]
    have heof := feof_newline 127 line (fileOf lines)
    by_cases hshort : line.length + 1 < 127
    · obtain ⟨fuel, rfl⟩ : ∃ k, fuel = k + 1 := ⟨fuel - 1, by omega⟩
      have hnul : 0 ∉ line ++ [10] := by simpa using hline.no_nul
      rw [routeLoop_scan (fgets_line hline.no_newline hshort) heof hnul, scan_newline]
      exact bind_congr fun i => ih hlines (by omega)
    · obtain ⟨fuel, rfl⟩ : ∃ k, fuel = k + 2 := ⟨fuel - 2, by omega⟩
      have hfull : line.length = 127 - 1 := by
        have := hline.short
        omega
      have hne : line ≠ [] := List.ne_nil_of_length_pos (by omega)
      have hrest : fgets 127 (10 :: fileOf lines) = some ([10], fileOf lines) :=
        fgets_line (show 10 ∉ ([] : List UInt8) from List.not_mem_nil) (by decide)
      rw [routeLoop_scan (fgets_full hline.no_newline hne hfull) heof hline.no_nul]
      refine bind_congr fun i => ?_
      rw [routeLoop_scan hrest (feof_newline 127 [] _) (by decide)]
      exact ih hlines (by omega)

/-- The interface that the lines leave. -/
def lastIface (iface : List UInt8) (lines : List (List UInt8)) : List UInt8 :=
  lines.foldl (fun iface line => ((word line).map Prod.fst).getD iface) iface

theorem foldlM_scan_of_fits (h : ∀ line ∈ lines, Fits line) (iface : List UInt8) :
    lines.foldlM scan iface = .ok (lastIface iface lines) := by
  induction lines generalizing iface with
  | nil => rfl
  | cons line lines ih =>
    obtain ⟨hline, hlines⟩ := List.forall_mem_cons.1 h
    rw [List.foldlM_cons, scan_of_fits hline]
    exact ih hlines _

theorem foldlM_scan_of_not_fits (h : ¬ ∀ line ∈ lines, Fits line) (iface : List UInt8) :
    lines.foldlM scan iface = .error .outOfBounds := by
  induction lines generalizing iface with
  | nil => exact absurd (fun _ hl => absurd hl List.not_mem_nil) h
  | cons line lines ih =>
    rw [List.foldlM_cons]
    by_cases hline : Fits line
    · rw [scan_of_fits hline]
      exact ih (fun hlines => h (List.forall_mem_cons.2 ⟨hline, hlines⟩)) _
    · rw [scan_of_not_fits hline]
      rfl

namespace Table

theorem isLine (t : Table) : ∀ line ∈ t.lines, IsLine line := by
  intro line hline
  rcases List.mem_cons.1 hline with rfl | hline
  · exact t.header_isLine
  · obtain ⟨r, hr, rfl⟩ := List.mem_map.1 hline
    exact (t.valid r hr).isLine

theorem namesFit_iff (t : Table) : t.NamesFit ↔ ∀ line ∈ t.lines, Fits line := by
  rw [lines, List.forall_mem_cons, List.forall_mem_map]
  constructor
  · intro h
    exact ⟨h.header, fun r hr => (t.valid r hr).fits_text.2 (h.route r hr)⟩
  · intro ⟨hheader, hroutes⟩
    exact ⟨hheader, fun r hr => (t.valid r hr).fits_text.1 (hroutes r hr)⟩

/-- The last route decides. -/
theorem lastIface_eq (h : t.routes.getLast? = some r) (iface : List UInt8) :
    lastIface iface t.lines = r.iface := by
  obtain ⟨init, hinit⟩ := List.getLast?_eq_some_iff.1 h
  have hvalid : r.Valid := t.valid r (hinit ▸ List.mem_append_right init (List.mem_singleton_self r))
  rw [lastIface, lines, hinit, List.map_append, List.foldl_cons, List.foldl_append, List.map_singleton,
    List.foldl_cons, List.foldl_nil, hvalid.word_text]
  rfl

end Table

/-- The host with a routing table and a list of addresses. -/
def hostOf (t : Table) (ifaddr : List Ifaddrs) (ifc : List UInt8) : Host where
  route := some (fileOf t.lines)
  ifaddr := some ifaddr
  ifc := ifc

variable {ifaddr : List Ifaddrs}

theorem autodetectIpAddress_of_fits (hfits : t.NamesFit)
    (h : t.routes.getLast? = some r) (ifaddr : List Ifaddrs) (ifc : List UInt8) :
    autodetectIpAddress (hostOf t ifaddr ifc) = .ok (findAddr r.iface ifaddr) := by
  have hvalid : r.Valid := t.valid r (List.mem_of_getLast? h)
  unfold autodetectIpAddress hostOf
  dsimp only
  rw [routeLoop_fileOf t.isLine (Nat.lt_succ_self _), foldlM_scan_of_fits (t.namesFit_iff.1 hfits),
    t.lastIface_eq h]
  simp only [bind, Except.bind, if_neg hvalid.iface_ne]
  rfl

theorem autodetectIpAddress_of_not_fits (hfits : ¬ t.NamesFit)
    (ifaddr : List Ifaddrs) (ifc : List UInt8) :
    autodetectIpAddress (hostOf t ifaddr ifc) = .error .outOfBounds := by
  unfold autodetectIpAddress hostOf
  dsimp only
  rw [routeLoop_fileOf t.isLine (Nat.lt_succ_self _), foldlM_scan_of_not_fits
    (fun h => hfits (t.namesFit_iff.2 h))]
  rfl

/-- The address of the default route's interface is found, if it has one, exactly if the names fit in
their arrays and the last route's interface has the same address. -/
theorem follows_default_iff {d : Route} (hd : t.defaultRoute = some d) :
    (∀ a, findAddr d.iface ifaddr = some a →
      autodetectIpAddress (hostOf t ifaddr ifc) = .ok (some a)) ↔
    findAddr d.iface ifaddr = none ∨
      t.NamesFit ∧
        ∀ r, t.routes.getLast? = some r → findAddr r.iface ifaddr = findAddr d.iface ifaddr := by
  constructor
  · intro h
    cases haddr : findAddr d.iface ifaddr with
    | none => exact .inl rfl
    | some a =>
      have hrun := h a haddr
      have hfits : t.NamesFit := by
        by_contra hnot
        rw [autodetectIpAddress_of_not_fits hnot] at hrun
        cases hrun
      refine .inr ⟨hfits, fun r hr => ?_⟩
      rw [autodetectIpAddress_of_fits hfits hr] at hrun
      exact Except.ok.inj hrun
  · rintro (hnone | ⟨hfits, hlast⟩) a ha
    · rw [hnone] at ha
      cases ha
    · have hne : t.routes ≠ [] := List.ne_nil_of_mem (List.mem_of_find?_eq_some hd)
      have hr := List.getLast?_eq_some_getLast hne
      rw [autodetectIpAddress_of_fits hfits hr, hlast _ hr, ha]

/-! ## A host with two interfaces -/

instance (line : List UInt8) : Decidable (IsLine line) :=
  decidable_of_iff (10 ∉ line ∧ 0 ∉ line ∧ line.length < 127)
    ⟨fun h => ⟨h.1, h.2.1, h.2.2⟩, fun h => ⟨h.no_newline, h.no_nul, h.short⟩⟩

theorem valid_iff : r.Valid ↔
    (IsLine r.text ∧ r.iface ≠ [] ∧ r.iface.all (!isspace ·) = true) ∧
      r.dst ≠ [] ∧ r.dst.all (!isspace ·) = true ∧ r.rest.head?.all isspace = true := by
  constructor
  · intro h
    refine ⟨⟨h.isLine, h.iface_ne, ?_⟩, h.dst_ne, ?_, ?_⟩
    · simpa using h.iface_word
    · simpa using h.dst_word
    · exact (Option.all_eq_true ..).2 fun c hc => h.rest_space c hc
  · rintro ⟨⟨hline, hiface, hword⟩, hdst, hword', hrest⟩
    refine ⟨hline, hiface, by simpa using hword, hdst, by simpa using hword', fun c hc => ?_⟩
    exact (Option.all_eq_true ..).1 hrest c hc

instance (r : Route) : Decidable r.Valid := decidable_of_iff' _ valid_iff

/-- The route over the gateway 10.0.0.1. -/
def viaGateway : Route := ⟨bytes "eth0", bytes "00000000", bytes "\t0100000A\t0003"⟩

/-- The route to the net of a second interface. -/
def localNet : Route := ⟨bytes "eth1", bytes "0000A8C0", bytes "\t00000000\t0001"⟩

theorem valid_viaGateway : viaGateway.Valid := by decide +kernel

theorem valid_localNet : localNet.Valid := by decide +kernel

def tableOf (routes : List Route) (valid : ∀ r ∈ routes, r.Valid) : Table where
  header := bytes "Iface\tDestination\tGateway\tFlags"
  routes := routes
  header_isLine := by decide +kernel
  valid := valid

/-- eth0 has the address 10.0.0.5, and eth1 has 192.168.0.7. -/
def twoAddresses : List Ifaddrs :=
  [⟨some (bytes "eth0"), some (.inet ⟨10, 0, 0, 5⟩)⟩,
    ⟨some (bytes "eth1"), some (.inet ⟨192, 168, 0, 7⟩)⟩]

theorem follows_default_iff_last :
    autodetectIpAddress (hostOf (tableOf [localNet, viaGateway]
      (by simp [valid_localNet, valid_viaGateway])) twoAddresses []) =
        .ok (some (bytes "10.0.0.5")) :=
  (follows_default_iff (d := viaGateway) (by decide +kernel)).2
    (.inr ⟨⟨by decide +kernel, by decide +kernel⟩, fun r hr => by
      obtain rfl : viaGateway = r := by simpa [tableOf] using hr
      rfl⟩) _ (by decide +kernel)

/-- The default route comes first, and the address is the one of the other interface. -/
theorem not_follows_default_first :
    ¬ ∀ a, findAddr viaGateway.iface twoAddresses = some a →
      autodetectIpAddress (hostOf (tableOf [viaGateway, localNet]
        (by simp [valid_localNet, valid_viaGateway])) twoAddresses []) = .ok (some a) := by
  intro h
  have haddr : findAddr viaGateway.iface twoAddresses = some (bytes "10.0.0.5") := by
    decide +kernel
  have hother : findAddr localNet.iface twoAddresses ≠ some (bytes "10.0.0.5") := by
    decide +kernel
  have hrun := h _ haddr
  rw [autodetectIpAddress_of_fits (r := localNet) ⟨by decide +kernel, by decide +kernel⟩ rfl] at hrun
  exact hother (Except.ok.inj hrun)

end PeerStreamer.NetHelpers
