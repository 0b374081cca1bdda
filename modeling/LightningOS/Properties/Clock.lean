import LightningOS.Drivers.Rtc

/-!
# What the clock showed

The chip keeps a date and time and shows it in seven registers, in one of four formats. What
`rtc_read` returns is compared with it. On a chip that stands still the hours of noon and
midnight come out wrong in the 12 hour formats, and everything else is right. On a chip that
runs on during the call the registers are read one after the other, so a carry between two of
them gives a time that the clock never showed.
-/

namespace LightningOS.Rtc

/-! ## The calendar -/

structure DateTime where
  year : Nat
  month : Nat
  day : Nat
  hour : Nat
  minute : Nat
  second : Nat
  deriving DecidableEq, Repr

section Calendar

variable (leap : Nat → Bool)

def daysIn (year month : Nat) : Nat :=
  if month = 2 then (if leap year then 29 else 28)
  else if month = 4 ∨ month = 6 ∨ month = 9 ∨ month = 11 then 30
  else 31

structure DateTime.Valid (d : DateTime) : Prop where
  month : 1 ≤ d.month ∧ d.month ≤ 12
  day : 1 ≤ d.day ∧ d.day ≤ daysIn leap d.year d.month
  hour : d.hour < 24
  minute : d.minute < 60
  second : d.second < 60

def DateTime.nextMonth (d : DateTime) : DateTime :=
  if d.month < 12 then { d with month := d.month + 1 }
  else { d with month := 1, year := d.year + 1 }

def DateTime.nextDay (d : DateTime) : DateTime :=
  if d.day < daysIn leap d.year d.month then { d with day := d.day + 1 }
  else { d with day := 1 }.nextMonth

def DateTime.nextHour (d : DateTime) : DateTime :=
  if d.hour < 23 then { d with hour := d.hour + 1 } else { d with hour := 0 }.nextDay leap

def DateTime.nextMinute (d : DateTime) : DateTime :=
  if d.minute < 59 then { d with minute := d.minute + 1 } else { d with minute := 0 }.nextHour leap

/-- One second later. -/
def DateTime.next (d : DateTime) : DateTime :=
  if d.second < 59 then { d with second := d.second + 1 }
  else { d with second := 0 }.nextMinute leap

/-- So many seconds later. -/
def DateTime.after (d : DateTime) : Nat → DateTime
  | 0 => d
  | n + 1 => (d.after n).next leap

end Calendar

section Seconds

variable {leap : Nat → Bool} {d : DateTime}

theorem daysIn_bounds (leap : Nat → Bool) (year month : Nat) :
    28 ≤ daysIn leap year month ∧ daysIn leap year month ≤ 31 := by
  unfold daysIn
  split
  · split <;> omega
  · split <;> omega

theorem DateTime.Valid.nextMonth (h : d.Valid leap) (hday : d.day = 1) : d.nextMonth.Valid leap := by
  obtain ⟨hmonth, -, hhour, hminute, hsecond⟩ := h
  unfold DateTime.nextMonth
  split
  · have := daysIn_bounds leap d.year (d.month + 1)
    exact ⟨⟨by simp, by simpa using by omega⟩, ⟨by simp [hday], by simp [hday]; omega⟩, hhour,
      hminute, hsecond⟩
  · have := daysIn_bounds leap (d.year + 1) 1
    exact ⟨⟨by simp, by simp⟩, ⟨by simp [hday], by simp [hday]; omega⟩, hhour, hminute, hsecond⟩

theorem DateTime.Valid.nextDay (h : d.Valid leap) : (d.nextDay leap).Valid leap := by
  unfold DateTime.nextDay
  split
  next hlt => exact { h with day := ⟨by simp, hlt⟩ }
  · have hbounds := daysIn_bounds leap d.year d.month
    have hfirst : ({ d with day := 1 } : DateTime).Valid leap := { h with day := ⟨by simp, by simp; omega⟩ }
    exact hfirst.nextMonth rfl

theorem DateTime.Valid.nextHour (h : d.Valid leap) : (d.nextHour leap).Valid leap := by
  unfold DateTime.nextHour
  split
  next hlt => exact { h with hour := by simp; omega }
  · have hfirst : ({ d with hour := 0 } : DateTime).Valid leap := { h with hour := by simp }
    exact hfirst.nextDay

theorem DateTime.Valid.nextMinute (h : d.Valid leap) : (d.nextMinute leap).Valid leap := by
  unfold DateTime.nextMinute
  split
  next hlt => exact { h with minute := by simp; omega }
  · have hfirst : ({ d with minute := 0 } : DateTime).Valid leap := { h with minute := by simp }
    exact hfirst.nextHour

theorem DateTime.Valid.next (h : d.Valid leap) : (d.next leap).Valid leap := by
  unfold DateTime.next
  split
  next hlt => exact { h with second := by simp; omega }
  · have hfirst : ({ d with second := 0 } : DateTime).Valid leap := { h with second := by simp }
    exact hfirst.nextMinute

theorem DateTime.Valid.after (h : d.Valid leap) (n : Nat) : (d.after leap n).Valid leap := by
  induction n with
  | zero => exact h
  | succ n ih => exact ih.next

/-! What a carry leaves of the smaller fields, and how far it takes the year and the hour. -/

theorem DateTime.nextMonth_fields (d : DateTime) : d.nextMonth.hour = d.hour ∧
    d.nextMonth.minute = d.minute ∧ d.nextMonth.second = d.second ∧
    (d.nextMonth.year = d.year ∨ d.nextMonth.year = d.year + 1) := by
  unfold DateTime.nextMonth
  split
  · exact ⟨rfl, rfl, rfl, .inl rfl⟩
  · exact ⟨rfl, rfl, rfl, .inr rfl⟩

theorem DateTime.nextDay_fields (leap : Nat → Bool) (d : DateTime) :
    (d.nextDay leap).hour = d.hour ∧ (d.nextDay leap).minute = d.minute ∧
    (d.nextDay leap).second = d.second ∧
    ((d.nextDay leap).year = d.year ∨ (d.nextDay leap).year = d.year + 1) := by
  unfold DateTime.nextDay
  split
  · exact ⟨rfl, rfl, rfl, .inl rfl⟩
  · exact DateTime.nextMonth_fields _

/-- An hour later. -/
def NextHour (h h' : Nat) : Prop := h < 23 ∧ h' = h + 1 ∨ 23 ≤ h ∧ h' = 0

theorem DateTime.nextHour_fields (leap : Nat → Bool) (d : DateTime) :
    NextHour d.hour (d.nextHour leap).hour ∧
    (d.nextHour leap).minute = d.minute ∧ (d.nextHour leap).second = d.second ∧
    ((d.nextHour leap).year = d.year ∨ (d.nextHour leap).year = d.year + 1) := by
  unfold DateTime.nextHour
  split
  next hlt => exact ⟨.inl ⟨hlt, rfl⟩, rfl, rfl, .inl rfl⟩
  next hge =>
    obtain ⟨hhour, hrest⟩ := DateTime.nextDay_fields leap { d with hour := 0 }
    exact ⟨.inr ⟨by omega, hhour⟩, hrest⟩

theorem DateTime.nextMinute_fields (leap : Nat → Bool) (d : DateTime) :
    ((d.nextMinute leap).hour = d.hour ∨ NextHour d.hour (d.nextMinute leap).hour) ∧
    (d.nextMinute leap).second = d.second ∧
    ((d.nextMinute leap).year = d.year ∨ (d.nextMinute leap).year = d.year + 1) := by
  unfold DateTime.nextMinute
  split
  · exact ⟨.inl rfl, rfl, .inl rfl⟩
  · obtain ⟨hhour, -, hrest⟩ := DateTime.nextHour_fields leap { d with minute := 0 }
    exact ⟨.inr hhour, hrest⟩

/-- In less than a minute there is at most one carry out of the seconds. -/
theorem DateTime.after_cases (leap : Nat → Bool) (h : d.second < 60) {n : Nat} (hn : n < 60) :
    (d.second + n < 60 ∧ d.after leap n = { d with second := d.second + n }) ∨
      (60 ≤ d.second + n ∧ d.after leap n =
        { { d with second := 0 }.nextMinute leap with second := d.second + n - 60 }) := by
  induction n with
  | zero => exact .inl ⟨h, rfl⟩
  | succ n ih =>
    rw [DateTime.after]
    rcases ih (by omega) with ⟨hlt, heq⟩ | ⟨hge, heq⟩
    · rw [heq]
      by_cases hcarry : d.second + n < 59
      · refine .inl ⟨by omega, ?_⟩
        rw [DateTime.next, if_pos hcarry]
        rfl
      · refine .inr ⟨by omega, ?_⟩
        have hzero : d.second + (n + 1) - 60 = 0 := by omega
        rw [DateTime.next, if_neg hcarry, hzero]
        obtain ⟨-, hsecond, -⟩ := DateTime.nextMinute_fields leap { d with second := 0 }
        exact congrArg (fun s => { { d with second := 0 }.nextMinute leap with second := s }) hsecond
    · refine .inr ⟨by omega, ?_⟩
      have hcarry : d.second + n - 60 < 59 := by omega
      have hsecond : d.second + n - 60 + 1 = d.second + (n + 1) - 60 := by omega
      rw [heq, DateTime.next, if_pos hcarry, hsecond]

/-- What less than a minute changes. -/
structure Soon (d e : DateTime) : Prop where
  hour : e.hour = d.hour ∨ NextHour d.hour e.hour
  year : e.year = d.year ∨ e.year = d.year + 1

theorem DateTime.after_soon (h : d.second < 60) {n : Nat} (hn : n < 60) :
    Soon d (d.after leap n) ∧ ((d.after leap n).second = d.second → n = 0) := by
  rcases DateTime.after_cases leap h hn with ⟨-, heq⟩ | ⟨hge, heq⟩
  · rw [heq]
    refine ⟨⟨.inl rfl, .inl rfl⟩, fun hsecond => ?_⟩
    have hsame : d.second + n = d.second := hsecond
    omega
  · obtain ⟨hhour, -, hyear⟩ := DateTime.nextMinute_fields leap { d with second := 0 }
    rw [heq]
    refine ⟨⟨hhour, hyear⟩, fun hsecond => ?_⟩
    have hsame : d.second + n - 60 = d.second := hsecond
    omega

theorem DateTime.after_add (n m : Nat) : d.after leap (n + m) = (d.after leap n).after leap m := by
  induction m with
  | zero => rfl
  | succ m ih => rw [← Nat.add_assoc, DateTime.after, ih, DateTime.after]

end Seconds

/-! ## The registers -/

/-- A number of two digits, in BCD or in binary. -/
def enc (registerB : UInt8) (n : Nat) : UInt8 :=
  if registerB &&& 0x04 = 0 then UInt8.ofNat (n / 10 * 16 + n % 10) else UInt8.ofNat n

/-- The hour, in a 12 hour format from 1 to 12 with the PM flag. -/
def encHour (registerB : UInt8) (hour : Nat) : UInt8 :=
  if registerB &&& 0x02 = 0 then
    enc registerB ((hour + 11) % 12 + 1) ||| (if 12 ≤ hour then 0x80 else 0)
  else enc registerB hour

/-- A chip: the status register and the clock at each read, and the format. -/
structure Chip where
  status : Nat → UInt8
  registerB : UInt8
  clock : Nat → DateTime

def Chip.cmos (chip : Chip) : Cmos := fun i reg =>
  let d := chip.clock i
  if reg = 0x00 then enc chip.registerB d.second
  else if reg = 0x02 then enc chip.registerB d.minute
  else if reg = 0x04 then encHour chip.registerB d.hour
  else if reg = 0x07 then enc chip.registerB d.day
  else if reg = 0x08 then enc chip.registerB d.month
  else if reg = 0x09 then enc chip.registerB (d.year % 100)
  else if reg = 0x32 then enc chip.registerB (d.year / 100 % 100)
  else if reg = 0x0A then chip.status i
  else if reg = 0x0B then chip.registerB
  else 0

/-! ## Decoding -/

/-- The decoding of a register other than the hour. -/
def dec (registerB value : UInt8) : UInt8 := if registerB &&& 0x04 = 0 then fromBcd value else value

/-- The decoding of the hour. -/
def decHour (registerB value : UInt8) : UInt8 :=
  let hour := if registerB &&& 0x04 = 0 then fromBcd (value &&& 0x7F) ||| (value &&& 0x80) else value
  if registerB &&& 0x02 = 0 ∧ hour &&& 0x80 ≠ 0 then
    UInt8.ofNat (((hour &&& 0x7F).toNat + 12) % 24)
  else hour

theorem dec_enc (registerB : UInt8) {n : Nat} (h : n < 100) : (dec registerB (enc registerB n)).toNat = n := by
  unfold dec enc
  by_cases hbcd : registerB &&& 0x04 = 0
  · rw [if_pos hbcd, if_pos hbcd]
    have hall : ∀ n ∈ List.range 100, (fromBcd (UInt8.ofNat (n / 10 * 16 + n % 10))).toNat = n := by
      decide +kernel
    exact hall n (List.mem_range.mpr h)
  · rw [if_neg hbcd, if_neg hbcd, UInt8.toNat_ofNat']
    omega

/-- The hour that comes out. Noon and midnight change places in the 12 hour formats. -/
def heard (registerB : UInt8) (hour : Nat) : Nat :=
  if registerB &&& 0x02 = 0 ∧ hour % 12 = 0 then 12 - hour else hour

theorem decHour_encHour (registerB : UInt8) {hour : Nat} (h : hour < 24) :
    (decHour registerB (encHour registerB hour)).toNat = heard registerB hour := by
  unfold decHour encHour heard enc
  by_cases hbcd : registerB &&& 0x04 = 0 <;> by_cases hhalf : registerB &&& 0x02 = 0
  all_goals
    simp only [hbcd, hhalf, if_true, if_false, true_and, false_and]
    revert hour
    decide +kernel

/-- The year of `rtc_read`, from two registers. -/
def yearRead (year century : Nat) : Nat :=
  if 19 ≤ century ∧ century ≤ 21 then century * 100 + year else 2000 + year

/-- The result names this date and time. -/
structure RtcTime.Is (out : RtcTime) (d : DateTime) : Prop where
  year : out.year.toNat = d.year
  month : out.month.toNat = d.month
  day : out.day.toNat = d.day
  hour : out.hour.toNat = d.hour
  minute : out.minute.toNat = d.minute
  second : out.second.toNat = d.second

/-- What the seven reads behind the wait make of the clock, when the `i`-th read is the first. -/
def Chip.reading (chip : Chip) (i : Nat) : DateTime where
  second := (chip.clock i).second
  minute := (chip.clock (i + 1)).minute
  hour := heard chip.registerB (chip.clock (i + 2)).hour
  day := (chip.clock (i + 3)).day
  month := (chip.clock (i + 4)).month
  year := yearRead ((chip.clock (i + 5)).year % 100) ((chip.clock (i + 6)).year / 100 % 100)

theorem RtcTime.is_iff {out : RtcTime} {d e : DateTime} (h : out.Is d) : out.Is e ↔ d = e := by
  constructor
  · intro h'
    cases d
    cases e
    simp only [DateTime.mk.injEq]
    exact ⟨h.year.symm.trans h'.year, h.month.symm.trans h'.month, h.day.symm.trans h'.day,
      h.hour.symm.trans h'.hour, h.minute.symm.trans h'.minute, h.second.symm.trans h'.second⟩
  · rintro rfl
    exact h

section Read

variable {leap : Nat → Bool} {chip : Chip}

theorem Chip.decodeYear (registerB : UInt8) {year century : Nat} (hy : year < 100)
    (hc : century < 100) :
    (if 19 ≤ dec registerB (enc registerB century) ∧ dec registerB (enc registerB century) ≤ 21 then
        UInt16.ofNat ((dec registerB (enc registerB century)).toNat * 100 +
          (dec registerB (enc registerB year)).toNat)
      else UInt16.ofNat (2000 + (dec registerB (enc registerB year)).toNat)).toNat =
      yearRead year century := by
  have hdec := dec_enc registerB hc
  have hrange : (19 ≤ dec registerB (enc registerB century) ∧
      dec registerB (enc registerB century) ≤ 21) ↔ (19 ≤ century ∧ century ≤ 21) := by
    rw [UInt8.le_iff_toNat_le, UInt8.le_iff_toNat_le, hdec]
    rfl
  unfold yearRead
  rw [hdec, dec_enc registerB hy]
  by_cases h : 19 ≤ century ∧ century ≤ 21
  · rw [if_pos (hrange.mpr h), if_pos h, UInt16.toNat_ofNat']
    omega
  · rw [if_neg (fun h' => h (hrange.mp h')), if_neg h, UInt16.toNat_ofNat']
    omega

/-- **What `rtc_read` returns**, in terms of what the clock was at the reads. -/
theorem rtcRead_reading (hvalid : ∀ i, (chip.clock i).Valid leap) {fuel i : Nat}
    (hwait : waitUpdate chip.cmos fuel 0 = some i) :
    ∃ out, rtcRead chip.cmos fuel = some out ∧ out.Is (chip.reading i) := by
  have hday : ∀ j, (chip.clock j).day < 100 := by
    intro j
    have hbounds := daysIn_bounds leap (chip.clock j).year (chip.clock j).month
    have := (hvalid j).day
    omega
  have hmonth : ∀ j, (chip.clock j).month < 100 := by
    intro j
    have := (hvalid j).month
    omega
  have hminute : ∀ j, (chip.clock j).minute < 100 := by
    intro j
    have := (hvalid j).minute
    omega
  have hsecond : ∀ j, (chip.clock j).second < 100 := by
    intro j
    have := (hvalid j).second
    omega
  unfold rtcRead
  rw [hwait]
  refine ⟨_, rfl, ?_⟩
  exact {
    year := Chip.decodeYear chip.registerB (Nat.mod_lt _ (by decide)) (Nat.mod_lt _ (by decide))
    month := dec_enc chip.registerB (hmonth (i + 4))
    day := dec_enc chip.registerB (hday (i + 3))
    hour := decHour_encHour chip.registerB (hvalid (i + 2)).hour
    minute := dec_enc chip.registerB (hminute (i + 1))
    second := dec_enc chip.registerB (hsecond i) }

/-- `rtc_read` knows the year and the hour of this date. -/
structure Decodes (registerB : UInt8) (d : DateTime) : Prop where
  hour : registerB &&& 0x02 ≠ 0 ∨ d.hour % 12 ≠ 0
  year : 1900 ≤ d.year ∧ d.year ≤ 2199

theorem heard_eq_iff (registerB : UInt8) (hour : Nat) :
    heard registerB hour = hour ↔ registerB &&& 0x02 ≠ 0 ∨ hour % 12 ≠ 0 := by
  unfold heard
  by_cases h : registerB &&& 0x02 = 0
  · by_cases h' : hour % 12 = 0
    · rw [if_pos ⟨h, h'⟩]
      simp only [h, h', ne_eq, not_true_eq_false, or_self, iff_false]
      omega
    · simp [h']
  · simp [h]

theorem yearRead_of_range {year : Nat} (h : 1900 ≤ year ∧ year ≤ 2199) :
    yearRead (year % 100) (year / 100 % 100) = year := by
  unfold yearRead
  rw [if_pos (by omega)]
  omega

theorem waitUpdate_ready {cmos : Cmos} {n : Nat} (hready : cmos n 0x0A &&& 0x80 = 0) :
    ∀ {fuel i : Nat}, i ≤ n → n < i + fuel → ∃ j, waitUpdate cmos fuel i = some j := by
  intro fuel
  induction fuel with
  | zero => intro i hle hlt; omega
  | succ fuel ih =>
    intro i hle hlt
    rw [waitUpdate]
    by_cases hbusy : cmos i 0x0A &&& 0x80 ≠ 0
    · rw [if_pos hbusy]
      have hne : i ≠ n := by
        rintro rfl
        exact hbusy hready
      exact ih (by omega) (by omega)
    · rw [if_neg hbusy]
      exact ⟨i + 1, rfl⟩

/-- **A clock that stands still is read as it is, but for noon and midnight.** -/
theorem rtcRead_inverts {d : DateTime} (hvalid : d.Valid leap) (hyear : 1900 ≤ d.year ∧ d.year ≤ 2199)
    (hstill : ∀ i, chip.clock i = d) {n : Nat} (hready : chip.status n &&& 0x80 = 0) {fuel : Nat}
    (hfuel : n < fuel) : ∃ out, rtcRead chip.cmos fuel = some out ∧
      (out.Is d ↔ chip.registerB &&& 0x02 ≠ 0 ∨ d.hour % 12 ≠ 0) := by
  have hclear : chip.cmos n 0x0A &&& 0x80 = 0 := hready
  have hlt : n < 0 + fuel := by omega
  obtain ⟨i, hwait⟩ := waitUpdate_ready hclear (Nat.zero_le n) hlt
  obtain ⟨out, hrun, hout⟩ := rtcRead_reading (fun i => (hstill i).symm ▸ hvalid) hwait
  refine ⟨out, hrun, ?_⟩
  rw [RtcTime.is_iff hout, ← heard_eq_iff]
  unfold Chip.reading
  simp only [hstill, yearRead_of_range hyear]
  constructor
  · exact fun h => congrArg DateTime.hour h
  · intro h
    rw [h]

end Read

def gregorian (year : Nat) : Bool := year % 4 = 0 && (year % 100 ≠ 0 || year % 400 = 0)

def noon : DateTime := ⟨2024, 2, 29, 12, 0, 0⟩

theorem noon_valid : noon.Valid gregorian :=
  ⟨by decide, by decide, by decide, by decide, by decide⟩

/-- A chip that shows noon in this format. -/
def noonChip (registerB : UInt8) : Chip := { status := fun _ => 0, registerB, clock := fun _ => noon }

theorem rtcRead_inverts_noon : ∃ out, rtcRead (noonChip 0x02).cmos 1 = some out ∧ out.Is noon := by
  have hstill : ∀ i, (noonChip 0x02).clock i = noon := fun _ => rfl
  have hready : (noonChip 0x02).status 0 &&& 0x80 = 0 := by decide
  obtain ⟨out, hrun, hout⟩ := rtcRead_inverts noon_valid (by decide) hstill hready Nat.one_pos
  exact ⟨out, hrun, hout.mpr (.inl (by decide))⟩

/-- In a 12 hour format noon comes out as midnight. -/
theorem noon_misread : noon.Valid gregorian ∧
    ∃ out, rtcRead (noonChip 0x00).cmos 1 = some out ∧ out.hour = 0 ∧ ¬out.Is noon :=
  ⟨noon_valid, ⟨0, 0, 0, 29, 2, 2024⟩, by decide, rfl, fun h => absurd h.hour (by decide)⟩

/-! ## A clock that runs on -/

section Running

variable {leap : Nat → Bool} {chip : Chip}

/-- No field changes between the first read and the read of its own register. -/
structure Untorn (clock : Nat → DateTime) (i : Nat) : Prop where
  minute : (clock (i + 1)).minute = (clock i).minute
  hour : (clock (i + 2)).hour = (clock i).hour
  day : (clock (i + 3)).day = (clock i).day
  month : (clock (i + 4)).month = (clock i).month
  year : (clock (i + 5)).year % 100 = (clock i).year % 100
  century : (clock (i + 6)).year / 100 % 100 = (clock i).year / 100 % 100

theorem Untorn.reading {i : Nat} (h : Untorn chip.clock i)
    (hdec : Decodes chip.registerB (chip.clock i)) : chip.reading i = chip.clock i := by
  unfold Chip.reading
  rw [h.minute, h.hour, h.day, h.month, h.year, h.century, yearRead_of_range hdec.year,
    (heard_eq_iff _ _).mpr hdec.hour]

/-- An hour that is heard wrong is half a day off. -/
theorem heard_soon {registerB : UInt8} {h h' : Nat} (hsoon : h' = h ∨ NextHour h h')
    (hheard : heard registerB h' = h) : h' = h ∧ (registerB &&& 0x02 ≠ 0 ∨ h % 12 ≠ 0) := by
  unfold heard at hheard
  unfold NextHour at hsoon
  by_cases hhalf : registerB &&& 0x02 = 0
  · by_cases hswap : h' % 12 = 0
    · rw [if_pos ⟨hhalf, hswap⟩] at hheard
      omega
    · rw [if_neg (fun hand => hswap hand.2)] at hheard
      exact ⟨hheard, .inr (hheard ▸ hswap)⟩
  · rw [if_neg (fun hand => hhalf hand.1)] at hheard
    exact ⟨hheard, .inl hhalf⟩

theorem yearRead_soon {year year' year'' : Nat} (h : year'' = year ∨ year'' = year + 1)
    (hread : yearRead (year' % 100) (year'' / 100 % 100) = year) :
    year' % 100 = year % 100 ∧ year'' / 100 % 100 = year / 100 % 100 ∧ 1900 ≤ year ∧
      year ≤ 2199 := by
  unfold yearRead at hread
  split at hread
  · omega
  · omega

/-- Less than a minute after the first read, only a reading without a carry is right. -/
theorem untorn_of_reading {i : Nat} (hsoon : ∀ j, i ≤ j → j ≤ i + 7 → Soon (chip.clock i) (chip.clock j))
    (h : chip.reading i = chip.clock i) :
    Untorn chip.clock i ∧ Decodes chip.registerB (chip.clock i) := by
  have hread := DateTime.mk.inj h
  obtain ⟨hyear, hmonth, hday, hhour, hminute, -⟩ := hread
  obtain ⟨hsame, hhalf⟩ := heard_soon (hsoon (i + 2) (by omega) (by omega)).hour hhour
  obtain ⟨hyy, hcc, hrange⟩ :=
    yearRead_soon (hsoon (i + 6) (by omega) (by omega)).year hyear
  exact ⟨⟨hminute, hsame, hday, hmonth, hyy, hcc⟩, ⟨hhalf, hrange⟩⟩

/-- The clock showed this between the moments `first` and `last`. -/
def Showed (leap : Nat → Bool) (start : DateTime) (first last : Nat) (out : RtcTime) : Prop :=
  ∃ s, first ≤ s ∧ s ≤ last ∧ out.Is (start.after leap s)

/-- **A reading without a carry is what the clock showed**, and within a minute no other one is.
`moment` says how many seconds after `start` each read is made. -/
theorem rtcRead_untorn {start : DateTime} (hvalid : start.Valid leap) {moment : Nat → Nat}
    (hmono : Monotone moment) (hclock : ∀ i, chip.clock i = start.after leap (moment i))
    {fuel i : Nat} (hwait : waitUpdate chip.cmos fuel 0 = some i) {first last : Nat}
    (hfirst : first ≤ moment 0) (hlast : moment (i + 7) ≤ last) :
    ∃ out, rtcRead chip.cmos fuel = some out ∧
      (Untorn chip.clock i ∧ Decodes chip.registerB (chip.clock i) →
        Showed leap start first last out) ∧
      (last < first + 60 → Showed leap start first last out →
        Untorn chip.clock i ∧ Decodes chip.registerB (chip.clock i)) := by
  have hvalid' : ∀ j, (chip.clock j).Valid leap := fun j => (hclock j).symm ▸ hvalid.after _
  obtain ⟨out, hrun, hout⟩ := rtcRead_reading hvalid' hwait
  have hfrom : first ≤ moment i := hfirst.trans (hmono (Nat.zero_le i))
  have hto : ∀ j, j ≤ i + 7 → moment j ≤ last := fun j hj => (hmono hj).trans hlast
  refine ⟨out, hrun, ?_, ?_⟩
  · rintro ⟨huntorn, hdec⟩
    refine ⟨moment i, hfrom, hto i (by omega), ?_⟩
    rw [RtcTime.is_iff hout, huntorn.reading hdec, hclock]
  · rintro hshort ⟨s, hs, hs', his⟩
    have hreading := (RtcTime.is_iff hout).mp his
    -- the seconds tell that the moment is that of the first read
    have hsecond : (chip.clock i).second = (start.after leap s).second :=
      (congrArg DateTime.second hreading : (chip.reading i).second = _)
    have hmoment : s = moment i := by
      rcases Nat.le_total (moment i) s with hle | hle
      · obtain ⟨n, rfl⟩ := Nat.exists_eq_add_of_le hle
        rw [DateTime.after_add, ← hclock] at hsecond
        have hzero := (DateTime.after_soon (hvalid' i).second (by omega)).2 hsecond.symm
        omega
      · obtain ⟨n, hn⟩ := Nat.exists_eq_add_of_le hle
        rw [hclock, hn, DateTime.after_add] at hsecond
        have hlt := hto i (by omega)
        have hzero := (DateTime.after_soon (hvalid.after s).second (by omega)).2 hsecond
        omega
    rw [hmoment, ← hclock] at hreading
    refine untorn_of_reading (fun j hij hj => ?_) hreading
    obtain ⟨n, hn⟩ := Nat.exists_eq_add_of_le (hmono hij)
    have hlt := hto j hj
    rw [hclock j, hn, DateTime.after_add, ← hclock]
    exact (DateTime.after_soon (hvalid' i).second (by omega)).1

end Running

def newYear : DateTime := ⟨2026, 1, 1, 0, 0, 0⟩

/-- A chip that is read once every second. -/
def slowChip : Chip :=
  { status := fun _ => 0, registerB := 0x02, clock := fun i => newYear.after gregorian i }

theorem rtcRead_untorn_newYear : ∃ out, rtcRead slowChip.cmos 1 = some out ∧
    Showed gregorian newYear 0 8 out := by
  have hvalid : newYear.Valid gregorian := ⟨by decide, by decide, by decide, by decide, by decide⟩
  have hclock : ∀ i, slowChip.clock i = newYear.after gregorian (id i) := fun _ => rfl
  have hwait : waitUpdate slowChip.cmos 1 0 = some 1 := by decide
  obtain ⟨out, hrun, hshowed, -⟩ :=
    rtcRead_untorn hvalid monotone_id hclock hwait (Nat.le_refl 0) (Nat.le_refl 8)
  exact ⟨out, hrun, hshowed ⟨⟨by decide, by decide, by decide, by decide, by decide, by decide⟩,
    ⟨.inl (by decide), by decide⟩⟩⟩

/-- A second before one minute past twelve. -/
def twelve : DateTime := ⟨2026, 1, 1, 12, 0, 59⟩

/-- The second passes between the first read and the next. -/
def tornMoment (i : Nat) : Nat := if i < 2 then 0 else 1

def tornChip : Chip :=
  { status := fun _ => 0, registerB := 0x02, clock := fun i => twelve.after gregorian (tornMoment i) }

/-- The reading is almost a minute ahead of the clock. -/
theorem clock_torn : twelve.Valid gregorian ∧ Monotone tornMoment ∧
    ∃ out, rtcRead tornChip.cmos 1 = some out ∧ out.Is ⟨2026, 1, 1, 12, 1, 59⟩ ∧
      ¬Showed gregorian twelve (tornMoment 0) (tornMoment 8) out := by
  refine ⟨⟨by decide, by decide, by decide, by decide, by decide⟩, ?_, ⟨59, 1, 12, 1, 1, 2026⟩,
    by decide, ⟨rfl, rfl, rfl, rfl, rfl, rfl⟩, ?_⟩
  · intro i j hij
    unfold tornMoment
    split <;> split <;> omega
  · rintro ⟨s, -, hs, his⟩
    have hlast : tornMoment 8 = 1 := rfl
    have hcases : s = 0 ∨ s = 1 := by omega
    rcases hcases with rfl | rfl
    · exact absurd his.minute (by decide)
    · exact absurd his.second (by decide)

end LightningOS.Rtc
