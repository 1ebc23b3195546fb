/-
What `pcp.c` and `pcpd` print. `get_uptime_string` turns the seconds
since `startup_epoch_time` into `d:hh:mm:ss`: the difference is taken
into a `u_int32_t`, so a clock behind the startup time wraps, and the
days, hours and minutes come off by `u_int32_t` division and subtraction,
which never wraps. `write_pcp_state_to_file`, which `pcpd` runs on
`SIGUSR1`, writes one line per setting of its `config`.
-/
import Pcp.Daemon
import Pcp.Paths

namespace Pcp

/-! ## Numbers -/

/-- `printf ("%u", u)`. -/
def printfU (u : UInt32) : List Char := decimal u.toNat

/-- `printf ("%02u", u)`: the digits, padded on the left with `0` to two. -/
def printf02U (u : UInt32) : List Char :=
  let s := decimal u.toNat
  List.replicate (2 - s.length) '0' ++ s

/-- The two decimal digits of `n < 100`. -/
def twoDigits (n : Nat) : List Char := [Nat.digitChar (n / 10), Nat.digitChar (n % 10)]

theorem decimal_of_lt_ten {n : Nat} (h : n < 10) : decimal n = [Nat.digitChar n] := by
  rw [decimal, toDigits_eq (by decide), if_pos h, Nat.mod_eq_of_lt h, List.nil_append]

/-- Below `100`, `%02u` writes exactly two digits. -/
theorem printf02U_of_lt {u : UInt32} (h : u.toNat < 100) : printf02U u = twoDigits u.toNat := by
  by_cases h10 : u.toNat < 10
  · rw [printf02U, decimal_of_lt_ten h10, twoDigits, Nat.div_eq_of_lt h10, Nat.mod_eq_of_lt h10]
    rfl
  · rw [printf02U, decimal, toDigits_eq (by decide), if_neg h10, ← decimal, decimal_of_lt_ten (by omega)]
    rfl

/-! ## Uptime -/

/-- `get_uptime_string ()` at the clock reading `now` (`time (NULL)`):
`startup_epoch_time_get ()` subtracted, the result in a `u_int32_t`, then
`"%u:%02u:%02u:%02u"` of its days, hours, minutes and seconds. A failed
`asprintf`, which returns `NULL`, is not modelled. -/
def getUptimeString (now : Int) : Prog String := do
  let startup ← startupEpochTimeGet
  let uptime : UInt32 := toU32 (now - startup.toNat)
  let days := uptime / 86400
  let uptime := uptime - days * 86400
  let hours := uptime / 3600
  let uptime := uptime - hours * 3600
  let minutes := uptime / 60
  let uptime := uptime - minutes * 60
  let seconds := uptime
  return String.mk (printfU days ++ ':' :: printf02U hours ++ ':' :: printf02U minutes ++ ':' :: printf02U seconds)

theorem toU32_toNat_emod (x : Int) : (toU32 x).toNat = (x % 2 ^ 32).toNat := by
  rw [toU32, UInt32.toNat_ofNat_of_lt (by simp [UInt32.size]; omega)]

/-- Taking off the whole multiples of `b` leaves the remainder: the
product never wraps, and the subtraction never goes below zero. -/
theorem toNat_sub_div_mul (a b : UInt32) : (a - a / b * b).toNat = a.toNat % b.toNat := by
  have hmul : (a / b * b).toNat = a.toNat / b.toNat * b.toNat := by
    show ((a / b).toBitVec * b.toBitVec).toNat = _
    rw [BitVec.toNat_mul, show (a / b).toBitVec.toNat = a.toNat / b.toNat from UInt32.toNat_div a b]
    exact Nat.mod_eq_of_lt (lt_of_le_of_lt (Nat.div_mul_le_self _ _) a.toBitVec.isLt)
  have hle : a / b * b ≤ a := by
    show (a / b * b).toNat ≤ a.toNat
    exact hmul ▸ Nat.div_mul_le_self a.toNat b.toNat
  rw [UInt32.toNat_sub_of_le _ _ hle, hmul]
  have := Nat.mod_add_div' a.toNat b.toNat
  omega

/-- **`get_uptime_string` writes `d:hh:mm:ss`.** On every store and at
every clock reading, with `u` the seconds since the startup time taken
modulo `2^32`: the text is the days `u / 86400` in decimal, then the
hours, minutes and seconds of the day, each in exactly two digits; and
nothing is written. -/
theorem getUptimeString_run (now : Int) (t : Tree) :
    let u := ((now - (startupEpochTimeGet.run t).1.toNat) % 2 ^ 32).toNat
    (getUptimeString now).run t =
      (String.mk (decimal (u / 86400) ++ ':' :: twoDigits (u % 86400 / 3600) ++ ':' ::
        twoDigits (u % 3600 / 60) ++ ':' :: twoDigits (u % 60)), t) := by
  simp only [getUptimeString, Prog.run_bind, startupEpochTimeGet, configGetU32_run, Prog.run_pure]
  generalize toU32 (t.getInt (configKeyPath startupEpochTimeKey)) = s
  have hU := toU32_toNat_emod (now - s.toNat)
  generalize toU32 (now - s.toNat) = U at hU ⊢
  have h1 : (U - U / 86400 * 86400).toNat = U.toNat % 86400 := toNat_sub_div_mul U 86400
  have h2 : (U - U / 86400 * 86400 - (U - U / 86400 * 86400) / 3600 * 3600).toNat = U.toNat % 3600 := by
    rw [toNat_sub_div_mul, h1]
    exact Nat.mod_mod_of_dvd _ (by decide)
  have h3 : (U - U / 86400 * 86400 - (U - U / 86400 * 86400) / 3600 * 3600 -
      (U - U / 86400 * 86400 - (U - U / 86400 * 86400) / 3600 * 3600) / 60 * 60).toNat = U.toNat % 60 := by
    rw [toNat_sub_div_mul, h2]
    exact Nat.mod_mod_of_dvd _ (by decide)
  have hlit : (86400 : UInt32).toNat = 86400 ∧ (3600 : UInt32).toNat = 3600 ∧ (60 : UInt32).toNat = 60 :=
    ⟨rfl, rfl, rfl⟩
  rw [printfU, printf02U_of_lt, printf02U_of_lt, printf02U_of_lt]
  · simp only [UInt32.toNat_div, h1, h2, h3, hlit, ← hU]
  all_goals simp only [UInt32.toNat_div, h1, h2, h3, hlit]; omega

/-! ## The state report -/

/-- `printf ("%-36.35s", s)`: at most 35 characters of `s`, padded on the
right with blanks to 36. -/
def printfLeft (s : String) : List Char :=
  let t := s.data.take 35
  t ++ List.replicate (36 - t.length) ' '

/-- A line `"     %-36.35s: %s\n"` of the report. -/
def reportLine (label : String) (value : List Char) : List Char :=
  "     ".data ++ printfLeft label ++ ": ".data ++ value ++ ['\n']

/-- `x ? "Enabled" : "Disabled"`. -/
def enabledText (b : Bool) : List Char := if b then "Enabled".data else "Disabled".data

/-- `write_pcp_state_to_file (config, target)`: the text of its four
`fprintf` calls, the config, then the server, clients and static mappings
sections, which print fixed placeholders. A failed `fprintf`, after which
it stops, is not modelled. -/
def writePcpStateToFile (config : PcpConfig) : String :=
  String.mk <| "PCP Config:\n".data ++
    reportLine "PCP service" (enabledText config.pcpEnabled) ++
    reportLine "MAP opcode support" (enabledText config.mapSupport) ++
    reportLine "PEER opcode support" (enabledText config.peerSupport) ++
    reportLine "THIRD_PARTY option support" (enabledText config.thirdPartySupport) ++
    reportLine "Proxy support" (enabledText config.proxySupport) ++
    reportLine "UPnP IGD-PCP IWF support" (enabledText config.upnpIgdPcpIwfSupport) ++
    reportLine "Minimum mapping lifetime" (printfU config.minMappingLifetime) ++
    reportLine "Maximum mapping lifetime" (printfU config.maxMappingLifetime) ++
    reportLine "PREFER_FAILURE request rate limit" (printfU config.preferFailureReqRateLimit) ++
    "PCP Server:\n".data ++ reportLine "Server IP address" "something".data ++
    reportLine "Server uptime" (printfD 9001).data ++
    "PCP Clients:\n".data ++ reportLine "Server IP address" "something".data ++
    reportLine "Server uptime" (printfD 10001).data ++
    "PCP Static Mappings:\n".data ++ reportLine "Server IP address" "something".data ++
    reportLine "Server uptime" (printfD 12001).data

/-- A text with no newline ends at the first one. -/
theorem newline_split {l₁ l₂ r₁ r₂ : List Char} (h₁ : '\n' ∉ l₁) (h₂ : '\n' ∉ l₂)
    (h : l₁ ++ '\n' :: r₁ = l₂ ++ '\n' :: r₂) : l₁ = l₂ ∧ r₁ = r₂ := by
  have key : ∀ {l r : List Char}, '\n' ∉ l → (l ++ '\n' :: r).takeWhile (· != '\n') = l := fun hl => by
    rw [List.takeWhile_append_of_pos fun a ha => bne_iff_ne.mpr fun (e : a = '\n') => hl (e ▸ ha),
      List.takeWhile_cons_of_neg (by simp), List.append_nil]
  have hl : l₁ = l₂ := by rw [← key h₁, h, key h₂]
  subst hl
  exact ⟨rfl, (List.cons.inj (List.append_cancel_left h)).2⟩

/-- Two lines of the same label followed by text are equal only with equal
values and equal text after. -/
@[simp] theorem reportLine_append_inj {label : String} {v v' r r' : List Char} (hv : '\n' ∉ v) (hv' : '\n' ∉ v') :
    reportLine label v ++ r = reportLine label v' ++ r' ↔ v = v' ∧ r = r' := by
  refine ⟨fun h => newline_split hv hv' ?_, fun ⟨h1, h2⟩ => h1 ▸ h2 ▸ rfl⟩
  simpa only [reportLine, List.append_assoc, List.append_cancel_left_eq, List.singleton_append] using h

@[simp] theorem newline_not_mem_enabledText (b : Bool) : '\n' ∉ enabledText b := by cases b <;> decide

@[simp] theorem newline_not_mem_printfU (u : UInt32) : '\n' ∉ printfU u := fun h => by
  obtain ⟨d, hd, e⟩ := mem_toDigits (b := 10) (by decide) h
  have := (digitChar_facts d (by omega)).1
  rw [← e] at this
  cases this

@[simp] theorem enabledText_inj {b b' : Bool} : enabledText b = enabledText b' ↔ b = b' := by
  cases b <;> cases b' <;> decide

@[simp] theorem printfU_inj {u u' : UInt32} : printfU u = printfU u' ↔ u = u' :=
  ⟨fun h => UInt32.toNat.inj (decimal_inj h), fun h => h ▸ rfl⟩

/-- **The report shows all of `pcpd`'s config.** Two configs with the same
`SIGUSR1` report are equal: each of the nine settings has a line of its
own, ended by a newline no value contains. -/
theorem writePcpStateToFile_injective : Function.Injective writePcpStateToFile := by
  intro config config' h
  replace h := congrArg String.data h
  simp only [writePcpStateToFile, List.append_assoc, List.append_cancel_left_eq,
    reportLine_append_inj, newline_not_mem_enabledText, newline_not_mem_printfU, not_false_eq_true,
    enabledText_inj, printfU_inj] at h
  cases config
  cases config'
  simp only [PcpConfig.mk.injEq]
  tauto

end Pcp
