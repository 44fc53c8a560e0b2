import EvScript.Registry.Basic

/-!
# Work Registers

The work registers of the script engine, numbered from 0. The first 32 hold the local integer
variables of a script, the four temporaries its parameters, and the answer register what a
command returns when the script names no other place.
-/

namespace EvScript.Registry

/-- The names of the work registers, in order from 0. -/
def workNames : List String :=
  alike "LOCALWORK" ["0", "1", "2", "3", "4", "5", "6", "7", "8", "9", "10", "11", "12", "13", "14",
    "15", "16", "17", "18", "19", "20", "21", "22", "23", "24", "25", "26", "27", "28", "29", "30",
    "31"] ++
  alike "OBJCHRWORK" ["0", "1", "2", "3", "4", "5", "6", "7", "8", "9", "10", "11", "12", "13",
    "14", "15"] ++
  alike "WK_SCENE_" ["T01", "T02", "T03", "T04", "T05", "C01", "C02", "C03", "C04", "C05", "C06",
    "C07", "C08", "C09", "C10", "C11", "L01", "L02", "L03", "L04", "R201", "R202", "R203", "R205A",
    "R209", "R227", "R207", "R224", "D09R0104", "D21R0101", "D24R0105", "D14R0101", "D16R0102",
    "D27R0101", "D05R0101", "D27R0102", "D05R0114", "D11R0101", "D11R0101_MONSNO",
    "D11R0101_PRESENT", "D11R0101_PRESENT_ACCE_NO", "D11R0101_TNO", "D16R0103",
    "D11R0101_PRESENT_KINOMI_NO", "T01R0101", "T01R0102", "T01R0201", "T01R0202", "T02R0101",
    "T07R0101", "C01R0101", "C04GYM0102", "C01R0701", "C01R0201", "D03R0101", "C02R0103",
    "C03R0401", "KASEKI_MONSNO", "C08R0701", "C08R0401", "L01R0101", "R201R0101", "R221R0101",
    "PAIR_R201_RIVAL", "PAIR_L01_RIVAL", "CONTEST", "D03R0101_GHOST"] ++
  ["WK_ELEVATOR_FLOOR"] ++
  alike "WK_SCENE_" ["D02R0101", "UG", "C05_MAIN", "D29R0102", "PC0103", "COMM_ID", "D26R0104",
    "SAFARI_GATE", "D31R0201", "D31R0205", "SAFARI_ZONE", "D31R0202", "D31R0203", "D31R0204",
    "D31R0206", "D31R0207", "POKE_PARK", "PAIR_D16R0102_SEVEN5", "PAIR_D21R0101_SEVEN2",
    "PAIR_D24R0105_SEVEN3", "PAIR_D09R0104_SEVEN4", "NEWS_MONSNO", "T01_RIVAL", "C01_RIVAL",
    "PAIR_D03R0101_SEVEN1", "D13R0101", "C05_RIVAL", "C05R1101", "BICYCLE", "POSTMAN", "T03_ZUKAN",
    "C10R0101", "C01_GTC", "T05_OLDWOMAN", "KUJI_AZUKE_ITEM", "D10R0101", "DENDOU", "C07_SUPPORT",
    "C05_JUDGE", "C05R1101_JUDGE", "C02R0401", "GAME_START", "D20R0106", "L02R0101_P01",
    "L02R0101_P02", "L02R0101_P03", "L02R0101_P04", "L02R0101_P05", "L02R0101_P06", "L02R0101_P07",
    "L02R0101_P08", "L02R0101_P09", "L02R0101_CLOSE", "R218R0201_ZUKAN", "C02R0501",
    "C07R0201_GET_ACCE_NO", "R221R0201_ITEM_LOOP", "C05_GOODS_EV", "C01R0202_GET_ACCE_NO"] ++
  alike "WK_" ["D17SYSTEM_GET_POINT", "D17SYSTEM_PATH_MAP"] ++
  alike "WK_SCENE_" ["D26R0107", "D31", "T01R0201_GAME_CLEAR", "D25R0102", "D25R0108", "L02_BIGMAN",
    "C11R0101", "C04_STOPPER", "PLATE_MSG", "R212AR0101_POLICEMAN", "T04R0301_RE_ITEM", "D05R0116",
    "R227_SEVEN2", "C07_SUPPORT_GYM_AFTER", "C04_STOPPER_02", "CYCLINGROAD"] ++
  alike "SCWK_" ["EVWIN", "MSGWINDAT", "MENUWORK", "MSGINDEX", "ANMCOUNT", "COMMON_SCR_FLAG",
    "WIN_OPEN_FLAG", "VM_MACHINE_COUNT", "SCRIPT_ID", "PLAYER_DIR", "TARGET_OBJ", "DUMMY_OBJ",
    "RETURN_SCRIPT_WK", "VM_MAIN", "VM_SUB1", "WORDSET", "MSGBUF", "TMPBUF", "WAITICON",
    "SUBPROC_WORK", "PWORK", "EOA", "PLAYER_TCB", "WIN_FLAG", "TR0_RANGE", "TR0_DIR", "TR0_SCR_ID",
    "TR0_ID", "TR0_TYPE", "TR0_FLDOBJ", "TR0_TCB", "TR1_RANGE", "TR1_DIR", "TR1_SCR_ID", "TR1_ID",
    "TR1_TYPE", "TR1_FLDOBJ", "TR1_TCB", "COINWINDAT", "GOLDWINDAT", "REPORTWIN", "PARAM0",
    "PARAM1", "PARAM2", "PARAM3", "TEMP0", "TEMP1", "TEMP2", "TEMP3", "REG0", "REG1", "REG2",
    "REG3", "ANSWER", "TARGET_OBJID"] ++
  ["EV_WIN_B_CANCEL", "TOWNMAP_GUIDE_SEQUENCE"] ++
  alike "SYS_WORK_" ["FIRST_POKE_NO", "BTL_SEARCHER_BATTERY", "BTL_SEARCHER_CLEAR", "OOKISA_RECORD",
    "HIDEMAP_01", "HIDEMAP_02", "HIDEMAP_03", "HIDEMAP_04", "PARK_WALK_COUNT", "NEWS_DAYS_COUNT",
    "POKELOT_RND1", "POKELOT_RND2", "UG_TALK_COUNT", "PAIR_TRAINER_ID", "RENSYOU_COUNT",
    "POKE_LEVEL_NO", "DEPART_COUNT", "HAIHU_EVENT01", "HAIHU_EVENT02", "HAIHU_EVENT03",
    "UG_TOOL_GIVE_COUNT", "UG_KASEKI_DIG_COUNT", "UG_TRAP_HIT_COUNT", "UG_TALK_COUNT2",
    "FRIENDLY_COUNT"] ++
  ["HAIHUEVENT_ID_D30", "HAIHUEVENT_ID_D18", "HAIHUEVENT_ID_D05", "HIDEMAP_ID_D15",
   "HIDEMAP_ID_D30", "HIDEMAP_ID_L04", "HIDEMAP_ID_D18", "WK_SCENE_D31R0101_TOKKUN", "CON_TEMP01",
   "CON_TEMP02", "CON_TEMP03", "CON_TEMP04", "CON_TEMP05", "CON_TEMP06", "CON_TEMP07", "CON_TEMP08",
   "HIDEMAP_ID_C10", "HIDEMAP_ID_D10R0101"] ++
  alike "WK_TV_PROGRAMID_" ["1_2", "1_4", "1_6", "1_7", "1_10", "1_11", "1_13", "1_14", "2_1",
    "2_2", "2_3", "2_4", "2_6", "2_8", "2_10", "2_13", "2_15", "2_17", "2_18", "2_20", "2_21",
    "2_24", "2_25", "2_26", "3_1", "3_3", "3_6", "3_10", "3_11", "3_12", "4_1", "4_2", "4_5", "4_7",
    "4_9", "4_11", "4_18"] ++
  ["HAIHUEVENT_ID_C04", "WK_PLAYER_BIRTH_MOUNTH", "WK_PLAYER_BIRTH_DAY", "WK_SAVE_GIMMICK_001",
   "WK_SAVE_GIMMICK_002", "WK_SAVE_GIMMICK_003", "WK_SCENE_C04R0101",
   "WK_SCENE_COMMUNITY_ROOM_RECEPTION", "WK_BATTLE_TOWER_MODE", "UNION_TEMP0", "UNION_TEMP1",
   "UNION_TEMP2", "UNION_TEMP3", "UNION_TEMP4", "UNION_TEMP5", "UNION_TEMP6", "UNION_TEMP7",
   "UNION_TEMP8", "UNION_TEMP9", "WK_SCENE_C03GYM0101", "WK_SCENE_C04GYM0101",
   "WK_SCENE_C05GYM0101", "WK_SCENE_C06GYM0101", "WK_SCENE_C07GYM0101", "WK_SCENE_C02GYM0101",
   "WK_SCENE_C08GYM0101", "WK_SCENE_C09GYM0101", "WK_BT_M_S_PRESENT_RANK", "WK_BT_M_W_PRESENT_RANK",
   "WK_PAIR_POKEMON_INDEX", "_UNION_VIEW_CHAR_NO", "WK_SCENE_T04R0501_BALL",
   "WK_SCENE_GLOBAL_COUNTER", "WK_SCENE_T03_SP_MADAM", "WK_SCENE_T03_SP_GENTLEMAN",
   "WK_UGSHOP_WEEK"] ++
  alike "WK_SCENE_WILDCARD_" ["001", "002", "003", "004", "005", "006", "007", "008", "009", "010",
    "011", "012", "013", "014", "015", "016", "017", "018", "019", "020", "021", "022", "023",
    "024", "025", "026", "027", "028", "029", "030", "031", "032", "033", "034", "035", "036",
    "037", "038", "039", "040", "041", "042", "043", "044", "045", "046", "047", "048", "049",
    "050"] ++
  ["MONOHIROI_TIME", "WK_SCENE_CL_DOOR", "USE_COMMAND_TIME", "WK_SCENE_HEART_UROKO",
   "WK_TV_INT_DATA048_MY", "WK_TV_INT_DATA048_USE", "WK_BT_MASTER_ACCUMULATION_WINS",
   "WK_BT_MASTER_WINS_COUNT", "WK_BT_MASTER_WINS_COUNT_NEXT", "WK_BT_MASTER_WINS_PREZENT_MINTO",
   "WK_PALPARK_EVENT_CAMERA", "WK_SCENE_R221R0101_ZOU", "WK_PLAY_REPO_NO",
   "WK_TV_STR_DATA006_USE_GENDER", "WK_TV_STR_DATA021_MY_GENDER", "WK_TV_STR_DATA021_USE_GENDER",
   "WK_TV_STR_DATA037_MY_GENDER", "WK_TV_STR_DATA037_USE_GENDER", "WK_TV_STR_DATA041_MY_GENDER",
   "WK_TV_STR_DATA041_USE_GENDER", "WK_DAILY_RANDOM"]

/-- The work registers. -/
def work : Registry := ⟨"EvWork", numbered 0 workNames⟩

/-- The register in which a command leaves its result. -/
def answerRegister : Int := 246

/-- The registers of local integer variables, in the order in which they are given out. -/
def localRegisters : List Int := (List.range 32).map Int.ofNat

/-- The registers of integer parameters, in the order in which they are given out. -/
def parameterRegisters : List Int := [238, 239, 240, 241]

end EvScript.Registry
