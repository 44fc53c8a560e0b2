import EvScript.Registry.Basic

/-!
# System Flags

The system flags of the script engine, numbered from 0.
-/

namespace EvScript.Registry

/-- The names of the system flags, in order from 0. -/
def sysFlagNames : List String :=
  alike "SYS_FLAG_" ["ARRIVE_START", "BAG_GET", "PAIR", "KAIRIKI", "FNOTE_GET", "GAME_CLEAR",
    "ONE_STEP", "COMM_COUNTER", "SAFARI_MODE", "CON_STYLE_MASTER", "CON_BEAUTIFUL_MASTER",
    "CON_CUTE_MASTER", "CON_CLEVER_MASTER", "CON_STRONG_MASTER", "BTL_SEARCHER_USE", "UG_ARRIVE",
    "UG_DIG", "UG_TAMA", "UG_BASE", "UG_GOODS", "UG_HATA", "GTC_OPEN", "BTOWER_OPEN", "SHIP", "PST",
    "POKEPARK_MODE", "FLASH", "KIRIBARAI", "POKETCH_HOOK", "REIAIHAI", "MIZUKI", "BS_LV1", "BS_LV2",
    "BS_LV3", "BS_LV4", "BS_LV5", "BGM_D28", "BGM_GINGA", "BGM_D26", "BGM_C04", "BGM_D02",
    "BGM_D13", "BGM_R224", "BGM_C10", "WIFI_USE", "T05_GINGA_EVENT", "BGM_D27", "BGM_D29",
    "BGM_D16", "BGM_C02", "UG_FIRST", "BGM_T02", "CYCLINGROAD", "BGM_D10"] ++
  alike "OLD_FLAG_ARRIVE_" ["T01", "T02", "T03", "T04", "T05", "T06", "T07", "C01", "C02", "C03",
    "C04", "C05", "C06", "C07", "C08", "C09", "C10", "C11", "D01R0101", "D02R0101", "D03",
    "D04R0101", "D05", "D05R0114", "D06", "D07R0102", "D09R0101", "D10R0101", "D11R0101",
    "D12R0101", "D13R0101", "D14R0101", "D15", "D16", "D16R0101", "D17", "D17R0102", "D18",
    "D20R0101", "D21R0101", "D22R0101", "D23R0101", "D24", "D24R0101", "D25R0101", "D26R0101",
    "D27", "D27R0103", "D28", "D28R0103", "D29", "D29R0103", "D30", "C11R0101", "R206", "R208R0101",
    "R209R0101", "R210AR0101", "R210BR0101", "R212AR0101", "R212BR0101", "R213R0201", "L02R0101",
    "R222R0101", "R222R0201", "W226R0101", "R221", "R221R0101", "CHAMPLEAGUE", "MAX"] ++
  alike "BADGE_ID_" ["C03", "C04", "C07", "C06", "C05", "C02", "C09", "C08"] ++
  ["BADGE_MAX", "FIRST_SAVE"] ++
  alike "FLAG_ARRIVE_" ["C01", "C01FS0101", "C01PC0101", "C01PC0102", "C01PC0103", "C01R0101",
    "C01R0102", "C01R0103", "C01R0201", "C01R0202", "C01R0203", "C01R0204", "C01R0205", "C01R0206",
    "C01R0207", "C01R0208", "C01R0301", "C01R0302", "C01R0501", "C01R0502", "C01R0601", "C01R0701",
    "C01R0801", "C01R0802", "C02", "C02FS0101", "C02GYM0101", "C02PC0101", "C02PC0102", "C02PC0103",
    "C02R0101", "C02R0102", "C02R0103", "C02R0201", "C02R0301", "C02R0401", "C02R0501", "C02R0601",
    "C03", "C03FS0101", "C03GYM0101", "C03PC0101", "C03PC0102", "C03PC0103", "C03R0101", "C03R0102",
    "C03R0201", "C03R0202", "C03R0301", "C03R0401", "C03R0501", "C03R0601", "C03R0602", "C03R0701",
    "C04", "C04FS0101", "C04GYM0101", "C04GYM0102", "C04PC0101", "C04PC0102", "C04PC0103",
    "C04R0101", "C04R0201", "C04R0202", "C04R0203", "C04R0204", "C04R0301", "C04R0302", "C04R0303",
    "C04R0401", "C04R0501", "C04R0601", "C04R0701", "C04R0801", "C05", "C05FS0101", "C05GYM0101",
    "C05GYM0102", "C05GYM0103", "C05GYM0104", "C05GYM0105", "C05GYM0106", "C05GYM0107",
    "C05GYM0108", "C05GYM0109", "C05GYM0110", "C05GYM0111", "C05GYM0112", "C05GYM0113", "C05PC0101",
    "C05PC0102", "C05PC0103", "C05R0101", "C05R0102", "C05R0103", "C05R0201", "C05R0301",
    "C05R0401", "C05R0501", "C05R0601", "C05R0701", "C05R0801", "C05R0802", "C05R0803", "C05R0901",
    "C05R1001", "C05R1101", "C05R1102", "C05R1103", "C05R1201", "C06", "C06FS0101", "C06GYM0101",
    "C06PC0101", "C06PC0102", "C06PC0103", "C06R0101", "C06R0102", "C06R0201", "C06R0301",
    "C06R0401", "C06R0501", "C06R0601", "C07", "C07GYM0101", "C07PC0101", "C07PC0102", "C07PC0103",
    "C07R0101", "C07R0201", "C07R0202", "C07R0203", "C07R0204", "C07R0205", "C07R0206", "C07R0301",
    "C07R0401", "C07R0501", "C07R0601", "C07R0701", "C07R0801", "C07R0901", "C08", "C08FS0101",
    "C08GYM0101", "C08GYM0102", "C08GYM0103", "C08PC0101", "C08PC0102", "C08PC0103", "C08R0101",
    "C08R0201", "C08R0301", "C08R0401", "C08R0501", "C08R0601", "C08R0701", "C08R0801", "C08R0802",
    "C09", "C09FS0101", "C09GYM0101", "C09PC0101", "C09PC0102", "C09PC0103", "C09R0101", "C09R0201",
    "C10", "C10PC0101", "C10PC0102", "C10PC0103", "C10R0101", "C10R0102", "C10R0103", "C10R0104",
    "C10R0105", "C10R0106", "C10R0107", "C10R0108", "C10R0109", "C10R0110", "C10R0111", "C10R0112",
    "C10R0113", "C10R0114", "C10R0115", "C11", "C11FS0101", "C11PC0101", "C11PC0102", "C11PC0103",
    "C11R0101", "C11R0201", "C11R0301", "C11R0401", "D01R0101", "D01R0102", "D02", "D02R0101",
    "D03", "D03R0101", "D04", "D04R0101", "D05R0101", "D05R0102", "D05R0103", "D05R0104",
    "D05R0105", "D05R0106", "D05R0107", "D05R0108", "D05R0109", "D05R0110", "D05R0111", "D05R0112",
    "D05R0113", "D05R0114", "D05R0115", "D05R0116", "D06R0201", "D06R0202", "D06R0203", "D06R0204",
    "D06R0205", "D06R0206", "D07R0101", "D07R0102", "D07R0103", "D07R0104", "D07R0105", "D07R0106",
    "D07R0107", "D07R0108", "D07R0109", "D07R0110", "D07R0111", "D07R0112", "D07R0113", "D07R0114",
    "D07R0115", "D07R0116", "D07R0117", "D07R0118", "D07R0119", "D09R0101", "D09R0102", "D09R0103",
    "D09R0104", "D09R0105", "D09R0106", "D10R0101", "D11R0101", "D12R0101", "D13R0101", "D13R0102",
    "D14R0101", "D14R0102", "D15", "D15R0101", "D16", "D16R0101", "D16R0102", "D16R0103",
    "D17R0101", "D17R0102", "D17R0103", "D17R0104", "D17R0105", "D17R0106", "D17R0107", "D17R0108",
    "D17R0109", "D17R0110", "D17R0111", "D17R0112", "D17R0113", "D17R0114", "D17R0115", "D17R0116",
    "D17R0117", "D17R0118", "D17R0119", "D17R0120", "D17R0121", "D17R0122", "D18", "D20R0101",
    "D20R0102", "D20R0103", "D20R0104", "D20R0105", "D20R0106", "D21R0101", "D21R0102", "D22R0101",
    "D22R0102", "D22R0103", "D23R0101", "D24", "D24R0101", "D24R0102", "D24R0103", "D24R0104",
    "D24R0105", "D24R0106", "D24R0201", "D25R0101", "D25R0102", "D25R0103", "D25R0104", "D25R0105",
    "D25R0106", "D25R0107", "D25R0108", "D25R0109", "D26R0101", "D26R0102", "D26R0103", "D26R0104",
    "D26R0105", "D26R0106", "D26R0107", "D26R0108", "D27R0101", "D27R0102", "D27R0103", "D28R0101",
    "D28R0102", "D28R0103", "D29R0101", "D29R0102", "D29R0103", "D30", "D30R0101", "D31",
    "D31R0101", "D31R0201", "D31R0202", "D31R0203", "D31R0204", "D31R0205", "D31R0206", "D31R0207",
    "DIRECT2", "DIRECT4", "EVERYWHERE", "L01", "L02", "L02R0101", "L02R0201", "L02R0301", "L03",
    "L04", "NOTHING", "R201", "R202", "R203", "R204A", "R204B", "R205A", "R205AR0101", "R205B",
    "R206", "R206R0101", "R207", "R208", "R208R0101", "R209", "R209R0101", "R209R0102", "R209R0103",
    "R209R0104", "R209R0105", "R210A", "R210AR0101", "R210B", "R210BR0101", "R211A", "R211B",
    "R212A", "R212AR0101", "R212AR0102", "R212AR0103", "R212B", "R212BR0101", "R213", "R213R0101",
    "R213R0201", "R213R0301", "R213R0401", "R213R0501", "R213R0601", "R214", "R214R0101", "R215",
    "R216", "R216R0101", "R217", "R217R0101", "R217R0201", "R218", "R218R0101", "R218R0201", "R219",
    "R221", "R221R0101", "R221R0201", "R222", "R222R0101", "R222R0201", "R222R0301", "R224", "R225",
    "R225R0101", "R227", "R227R0101", "R228", "R228R0101", "R228R0201", "R228R0301", "R229",
    "RECORD", "T01", "T01R0101", "T01R0102", "T01R0201", "T01R0202", "T01R0301", "T01R0401", "T02",
    "T02FS0101", "T02PC0101", "T02PC0102", "T02PC0103", "T02R0101", "T02R0201", "T02R0202",
    "T02R0301", "T03", "T03FS0101", "T03PC0101", "T03PC0102", "T03PC0103", "T03R0101", "T03R0201",
    "T03R0301", "T04", "T04FS0101", "T04PC0101", "T04PC0102", "T04PC0103", "T04R0101", "T04R0201",
    "T04R0301", "T04R0401", "T04R0501", "T05", "T05PC0101", "T05PC0102", "T05PC0103", "T05R0101",
    "T05R0201", "T05R0301", "T05R0401", "T05R0501", "T06", "T06FS0101", "T06PC0101", "T06PC0102",
    "T06PC0103", "T06R0101", "T06R0201", "T06R0301", "T07", "T07FS0101", "T07PC0101", "T07PC0102",
    "T07PC0103", "T07R0101", "T07R0102", "T07R0103", "T07R0201", "T07R0301", "UG", "UNION", "W220",
    "W223", "W226", "W226R0101", "W230", "W231", "UNION01", "UNION02", "UNION03", "C04R0205",
    "D10R0201", "D10R0202", "D10R0301", "D10R0302", "D10R0303", "D10R0401", "D10R0402", "D10R0403",
    "D10R0501", "D10R0502", "D10R0601", "D10R0701", "D10R0801", "UGA01", "UGA02", "UGA03", "UGA04",
    "UGA05", "UGA06", "UGA07", "UGA08", "UGA09", "UGA10", "UGB01", "UGB02", "UGB03", "UGB04",
    "UGB05", "UGB06", "UGB07", "UGC01", "UGD01", "UGD02", "UGD03", "UGD04", "UGD05", "UGE01",
    "UGE02", "UGE03", "UGE04", "UGE05", "UGF01", "UGF02", "UGF03", "UGF04", "UGF05", "UGF06",
    "UGF07", "UGSPACE01", "UGSPACE02", "UGSPACE03", "UGSPACE04", "UGSPACE05", "UGSPACE06",
    "UGSPACE07", "UGSPACE08", "UGSPACE09", "UGSPACE10", "UGSPACE11", "UGSPACE12", "UGSPACE13",
    "UGSPACE14", "UGSPACE15", "UGSPACE16", "UGSPACE17", "UGSPACE18", "UGSPACE19", "UGSPACE20",
    "UGSPACE21", "UGSPACE22", "UGSPACE23", "UGSPACE24", "UGSPACE25", "UGSPACE26", "UGSPACE27",
    "UGSPACE28", "UGSPACE29", "UGSPACE30", "UGSPACE31", "UGSPACE32", "UGSPACE33", "UGSPACE34",
    "UGSPACE35", "UGSPACE36", "UGSPACE37", "UGSPACE38", "UGSPACE39", "UGSPACE40", "UGSPACE41",
    "UGSPACE42", "UGSPACE43", "UGSPACE44", "UGSPACE45", "UGSPACE46", "UGSPACE47", "UGSPACE48",
    "UGSPACE49", "UGSPACE50", "UGSPACE51", "UGSPACE52", "UGSPACE53", "UGSPACE54", "UGSPACE55",
    "UGSPACE56", "UGSPACE57", "UGSPACE58", "UGSPACE59", "UGSPACE60", "UGSPACE61", "UGSPACE62",
    "UGSPACE63", "UGSPACE64", "UGSPACE65", "UGSPACE66", "UGSPACE67", "UGSPACE68", "UGSPACEL01",
    "UGSPACEL02", "UGSPACEL03", "UGSPACEL04", "UGSPACEL05", "UGSPACEL06", "UGSPACEL07", "D05R0117",
    "D10R0901", "UGSECRETBASE01", "UGSECRETBASE02", "UGSECRETBASE03", "UGSECRETBASE04"] ++
  alike "SYS_FLAG_" ["CON_STYLE_NORMAL", "CON_STYLE_GREAT", "CON_STYLE_ULTRA",
    "CON_BEAUTIFUL_NORMAL", "CON_BEAUTIFUL_GREAT", "CON_BEAUTIFUL_ULTRA", "CON_CUTE_NORMAL",
    "CON_CUTE_GREAT", "CON_CUTE_ULTRA", "CON_CLEVER_NORMAL", "CON_CLEVER_GREAT", "CON_CLEVER_ULTRA",
    "CON_STRONG_NORMAL", "CON_STRONG_GREAT", "CON_STRONG_ULTRA", "CAMERA_REVERSAL",
    "ZENKOKU_GYM_KAIHOU", "FIELD_STOPER_NOTHING", "BATTLE_TOWER_M_S_OPEN"] ++
  alike "SYS_" ["FUREAI_EXIT", "HUSIGINAOKURIMONO_OPEN_FLAG", "GET_CAP", "NO_CAP_MODEL",
    "INPUT_OFF", "BOX_SYSTEM_OFF", "DENDOU_OFF", "ZENMETU_MUSI", "FLAG_BATTLE_TOWER_M_D_OPEN",
    "ROTOMU_HOT", "ROTOMU_WASH", "ROTOMU_COLD", "ROTOMU_FAN", "ROTOMU_CUT", "TRAINER_CARD_OPEN"] ++
  alike "SYS_FLAG_" ["CON_FUR_NORMAL", "CON_FUR_GREAT", "CON_FUR_ULTRA", "SUPPORT_HOUSE",
    "USE_TODAY_IWAKUDAKI", "USE_TODAY_IAIGIRI", "USE_TODAY_SORAWOTOBU", "USE_TODAY_KIRIBARAI",
    "USE_TODAY_NAMINORI", "USE_TODAY_KAIRIKI", "USE_TODAY_ROKKUKURAIMU", "USE_TODAY_TAKINOBORI",
    "UG_FRIEND_KASEKIHORI_SUCCESS", "UG_HIMITUKITI_INTO", "WILDCARD_000", "WILDCARD_001",
    "WILDCARD_002", "WILDCARD_003", "WILDCARD_004", "WILDCARD_005", "WILDCARD_006", "WILDCARD_007",
    "WILDCARD_008", "WILDCARD_009", "WILDCARD_010", "WILDCARD_011", "WILDCARD_012", "WILDCARD_013",
    "WILDCARD_014", "WILDCARD_015", "WILDCARD_016", "WILDCARD_017", "WILDCARD_018", "WILDCARD_019",
    "WILDCARD_020", "WILDCARD_021", "WILDCARD_022", "WILDCARD_023", "WILDCARD_024", "WILDCARD_025",
    "WILDCARD_026", "WILDCARD_027", "WILDCARD_028", "WILDCARD_029", "WILDCARD_030", "WILDCARD_031",
    "WILDCARD_032", "WILDCARD_033", "WILDCARD_034", "WILDCARD_035", "WILDCARD_036", "WILDCARD_037",
    "WILDCARD_038", "WILDCARD_039", "WILDCARD_040", "WILDCARD_041", "WILDCARD_042", "WILDCARD_043",
    "WILDCARD_044", "WILDCARD_045", "WILDCARD_046", "WILDCARD_047", "WILDCARD_048", "WILDCARD_049",
    "WILDCARD_050", "WILDCARD_051", "WILDCARD_052", "WILDCARD_053", "WILDCARD_054", "WILDCARD_055",
    "WILDCARD_056", "WILDCARD_057", "WILDCARD_058", "WILDCARD_059", "WILDCARD_060", "WILDCARD_061",
    "WILDCARD_062", "WILDCARD_063", "WILDCARD_064", "WILDCARD_065", "WILDCARD_066", "WILDCARD_067",
    "WILDCARD_068", "WILDCARD_069", "WILDCARD_070", "WILDCARD_071", "WILDCARD_072", "WILDCARD_073",
    "WILDCARD_074", "WILDCARD_075", "WILDCARD_076", "WILDCARD_077", "WILDCARD_078", "WILDCARD_079",
    "WILDCARD_080", "WILDCARD_081", "WILDCARD_082", "WILDCARD_083", "WILDCARD_084", "WILDCARD_085",
    "WILDCARD_086", "WILDCARD_087", "WILDCARD_088", "WILDCARD_089", "WILDCARD_090", "WILDCARD_091",
    "WILDCARD_092", "WILDCARD_093", "WILDCARD_094", "WILDCARD_095", "WILDCARD_096", "WILDCARD_097",
    "WILDCARD_098", "WILDCARD_099", "WILDCARD_100", "AUTOSAVE_STOP", "MAP_INFO_STOP",
    "BTL_RETURN_CALL_SP"] ++
  alike "FLAG_ARRIVE_" ["D10R0902", "SEA01", "C01R0209", "UGAASECRETBASE01", "UGAASECRETBASE02",
    "UGAASECRETBASE03", "UGABSECRETBASE01", "UGABSECRETBASE02", "UGABSECRETBASE03",
    "UGBASECRETBASE01", "UGBASECRETBASE02", "UGBASECRETBASE03", "UGCASECRETBASE01",
    "UGCASECRETBASE02", "UGCASECRETBASE03", "UGDASECRETBASE01", "UGDASECRETBASE02",
    "UGDASECRETBASE03", "UGEASECRETBASE01", "UGEASECRETBASE02", "UGEASECRETBASE03",
    "UGFASECRETBASE01", "UGFASECRETBASE02", "UGFASECRETBASE03", "D10R0202B", "D10R0301B",
    "D10R0302B", "D10R0303B", "D10R0401B", "D10R0402B", "D10R0403B", "D10R0501B", "D10R0502B",
    "D10R0601B", "OTHER_ZONE1", "OTHER_ZONE2", "OTHER_ZONE3", "OTHER_ZONE4", "OTHER_ZONE5",
    "OTHER_ZONE6", "OTHER_ZONE7", "OTHER_ZONE8", "OTHER_ZONE9", "OTHER_ZONE10", "OTHER_ZONE11",
    "OTHER_ZONE12", "OTHER_ZONE13", "OTHER_ZONE14", "OTHER_ZONE15", "OTHER_ZONE16", "OTHER_ZONE17",
    "OTHER_ZONE18", "OTHER_ZONE19", "OTHER_ZONE20"] ++
  ["FLAG_STOP_EYE_ENCOUNT"]

/-- The system flags. -/
def sysFlag : Registry := ⟨"EvSysFlag", numbered 0 sysFlagNames⟩

end EvScript.Registry
