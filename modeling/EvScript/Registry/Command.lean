import EvScript.Registry.Basic

/-!
# Commands

The commands of the script engine. They are numbered from 1; one more member, below zero, is
a placeholder that stands for no command.
-/

namespace EvScript.Registry

/-- The names of the numbered commands, in order from 1. -/
def commandNames : List String :=
  alike "_" ["NOP", "DUMMY", "END", "TIME_WAIT", "LD_REG_VAL", "LD_REG_WDATA", "LD_REG_ADR",
    "LD_ADR_VAL", "LD_ADR_REG", "LD_REG_REG", "LD_ADR_ADR", "CP_REG_REG", "CP_REG_VAL",
    "CP_REG_ADR", "CP_ADR_REG", "CP_ADR_VAL", "CP_ADR_ADR", "CMPVAL", "CMPWK", "DEBUG_WATCH_WORK",
    "VM_ADD", "CHG_COMMON_SCR", "CHG_LOCAL_SCR", "JUMP", "OBJ_ID_JUMP", "BG_ID_JUMP",
    "PLAYER_DIR_JUMP", "CALL", "RET", "IF_JUMP", "IF_CALL", "IFVAL_JUMP", "IFVAL_CALL", "IFWK_JUMP",
    "IFWK_CALL", "SWITCH", "CASE_JUMP", "CASE_CANCEL", "ADD_WAITICON", "DEL_WAITICON", "FLAG_SET",
    "ARRIVE_FLAG_SET", "FLAG_RESET", "FLAG_CHECK", "IF_FLAGON_JUMP", "IF_FLAGOFF_JUMP",
    "IF_FLAGON_CALL", "IF_FLAGOFF_CALL", "FLAG_CHECK_WK", "FLAG_SET_WK", "TRAINER_FLAG_SET",
    "TRAINER_FLAG_RESET", "TRAINER_FLAG_CHECK", "IF_TR_FLAGON_JUMP", "IF_TR_FLAGOFF_JUMP",
    "IF_TR_FLAGON_CALL", "IF_TR_FLAGOFF_CALL", "ADD_WK", "SUB_WK", "LDVAL", "LDWK", "LDWKVAL",
    "TALKMSG_ALLPUT", "TALKMSG_ALLPUT_ARC", "TALKMSG_ARC", "TALKMSG_ALLPUT_PMS", "TALKMSG_PMS",
    "TALKMSG_BTOWER_APPEAR", "TALKMSG_NG_POKE_NAME", "TALKMSG", "TALKMSG_SP", "TALKMSG_SP_AUTO",
    "TALKMSG_NOSKIP", "TALKMSG_CON_SIO", "TALKMSG_AUTOGET", "AB_KEYWAIT", "AB_KEY_TIME_WAIT",
    "LAST_KEYWAIT", "NEXT_ANM_LAST_KEYWAIT", "TALK_OPEN", "TALK_CLOSE", "TALK_CLOSE_NO_CLEAR",
    "TALK_KEYWAIT", "EASY_OBJ_MSG", "EASY_MSG", "BOARD_MAKE", "INFOBOARD_MAKE", "BOARD_REQ",
    "BOARD_REQ_WAIT", "BOARD_MSG", "BOARD_END_WAIT", "EASY_BOARD_MSG", "EASY_INFOBOARD_MSG",
    "MENU_REQ", "BG_SCROLL", "YES_NO_WIN", "GUINNESS_WIN", "BMPMENU_INIT", "BMPMENU_INIT_EX",
    "BMPMENU_MAKE_LIST", "BMPMENU_MAKE_LIST16", "BMPMENU_START", "SEL_WIN_JUMP", "BMPLIST_INIT",
    "BMPLIST_INIT_EX", "BMPLIST_MAKE_LIST", "BMPLIST_START", "BMPMENU_HV_START", "SE_PLAY",
    "SE_STOP", "SE_WAIT", "VOICE_PLAY", "VOICE_WAIT", "EASY_VOICE_MSG", "ME_PLAY", "ME_WAIT",
    "SND_INITIAL_VOL_SET", "BGM_PLAY", "BGM_PLAY_CHECK", "BGM_STOP", "BGM_NOW_MAP_PLAY",
    "BGM_SPECIAL_SET", "BGM_SPECIAL_CLR", "BGM_FADEOUT", "BGM_FADEOUT_PLAY", "BGM_FADEIN",
    "BGM_PLAYER_PAUSE", "PLAYER_FIELD_DEMO_BGM_PLAY", "CTRL_BGM_FLAG_SET", "CTRL_BGM_FLAG_RESET",
    "PERAP_DATA_CHECK", "PERAP_REC_START", "PERAP_REC_STOP", "PERAP_SAVE", "SND_CLIMAX_DATA_LOAD",
    "OBJ_ANIME", "OBJ_ANIME_POS", "ANIME_LABEL", "ANIME_DATA", "OBJ_ANIME_WAIT",
    "TALK_OBJ_PAUSE_ALL", "OBJ_PAUSE_ALL", "OBJ_PAUSE_CLEAR_ALL", "OBJ_PAUSE", "OBJ_PAUSE_CLEAR",
    "OBJ_ADD", "OBJ_DEL", "VANISH_DUMMY_OBJ_ADD", "VANISH_DUMMY_OBJ_DEL", "TURN_HERO_SITE",
    "TALK_OBJ_START", "TALK_OBJ_START_TURN_NOT", "TALK_OBJ_END", "TALK_START", "EVENT_START",
    "TALK_END", "EVENT_END", "PLAYER_POS_GET", "OBJ_POS_GET", "PLAYER_POS_OFFSET_SET",
    "PLAYER_DIR_GET", "NOT_ZONE_DEL_SET", "MOVE_CODE_CHANGE", "MOVE_CODE_GET", "PAIR_OBJID_SET",
    "EVENT_DATA", "EVENT_DATA_END", "SP_EVENT_DATA_END", "SCENE_CHANGE_LABEL", "SCENE_CHANGE_DATA",
    "SCENE_CHANGE_END", "FLAG_CHANGE_LABEL", "OBJ_CHANGE_LABEL", "INIT_CHANGE_LABEL", "ADD_GOLD",
    "SUB_GOLD", "COMP_GOLD", "GOLD_WIN_WRITE", "GOLD_WIN_DEL", "GOLD_WRITE", "COIN_WIN_WRITE",
    "COIN_WIN_DEL", "COIN_WRITE", "GET_COIN_NUM", "ADD_COIN", "SUB_COIN", "FLD_ITEM_EVENT",
    "HIDE_ITEM_EVENT", "ADD_ITEM", "SUB_ITEM", "ADD_ITEM_CHK", "ITEM_CHK", "WAZA_ITEM_CHK",
    "GET_POCKET_NO", "CHECK_POCKET", "ADD_BOX_ITEM", "CHK_BOX_ITEM", "ADD_GOODS", "SUB_GOODS",
    "ADD_GOODS_CHK", "GOODS_CHK", "ADD_TRAP", "SUB_TRAP", "ADD_TRAP_CHK", "TRAP_CHK",
    "ADD_TREASURE", "SUB_TREASURE", "ADD_TREASURE_CHK", "TREASURE_CHK", "ADD_TAMA", "SUB_TAMA",
    "ADD_TAMA_CHK", "TAMA_CHK", "CB_SEAL_KIND_NUM_GET", "CB_ITEM_NUM_GET", "CB_ITEM_NUM_ADD",
    "UNKNOWN_FORM_GET", "ADD_POKEMON", "ADD_TAMAGO", "CHG_POKE_WAZA", "CHK_POKE_WAZA",
    "CHK_POKE_WAZA_GROUP", "APPROVE_POISON_DEAD", "REVENGE_TRAINER_SEARCH", "INIT_WEATHER",
    "SET_WEATHER", "UPDATE_WEATHER", "GET_MAP_POS", "GET_TEMOTI_POKE_NUM", "SET_MAP_PROC",
    "FINISH_MAP_PROC", "WIFI_AUTO_REG", "WIFI_P2P_MATCH_EVENT_CALL", "WIFI_P2P_MATCH_SET_DEL",
    "COMM_GET_CURRENT_ID", "DENDOU_NUM_GET", "POKE_WINDOW_PUT", "POKE_WINDOW_PUT_PP",
    "POKE_WINDOW_DEL", "POKE_WINDOW_ANM", "POKE_WINDOW_ANM_WAIT", "BTL_SEARCHER_EVENT_CALL",
    "BTL_SEARCHER_DIR_MV_SET", "MSG_BOY_EVENT", "IMAGE_CLIP_SET_PROC",
    "IMAGE_CLIP_VIEW_TV_SET_PROC", "IMAGE_CLIP_VIEW_CON_SET_PROC", "CUSTOM_BALL_EVENT_CALL",
    "TMAP_BG_SET_PROC", "BOX_SET_PROC", "OEKAKI_BOARD_SET_PROC", "TR_CARD_SET_PROC",
    "TRADE_LIST_SET_PROC", "RECORD_CORNER_SET_PROC", "DENDOU_SET_PROC", "PC_DENDOU_SET_PROC",
    "WORLDTRADE_SET_PROC", "DPW_INIT_PROC", "FIRST_POKE_SELECT_PROC",
    "FIRST_POKE_SELECT_SET_AND_DEL", "BAG_SET_PROC_NORMAL", "BAG_SET_PROC_KINOMI", "BAG_GET_RESULT",
    "POKELIST_SET_PROC", "NPC_TRADE_POKELIST_SET_PROC", "UNION_POKELIST_SET_PROC",
    "POKELIST_GET_RESULT", "CON_POKELIST_SET_PROC", "CON_POKELIST_GET_RESULT",
    "CON_POKESTATUS_SET_PROC", "POKESTATUS_GET_RESULT", "WIFI_EARTH_SET_PROC",
    "EYE_TRAINER_MOVE_SET", "EYE_TRAINER_MOVE_CHECK", "EYE_TRAINER_TYPE_GET", "EYE_TRAINER_ID_GET",
    "NAMEIN", "NAMEIN_POKE", "WIPE_FADE_START", "WIPE_FADE_END_CHECK", "WHITE_OUT", "WHITE_IN",
    "BLACK_OUT", "BLACK_IN", "MAP_CHANGE", "MAP_CHANGE_NONE_FADE", "COLOSSEUM_MAP_CHANGE_IN",
    "COLOSSEUM_MAP_CHANGE_OUT", "GET_BEFORE_ZONE_ID", "GET_NOW_ZONE_ID", "KABENOBORI", "NAMINORI",
    "BICYCLE_CHECK", "BICYCLE_REQ", "BICYCLE_REQ_NON_BGM", "CYCLING_ROAD_SET", "PLAYER_FORM_GET",
    "PLAYER_REQ_BIT_ON", "PLAYER_REQ_START", "TAKINOBORI", "SORAWOTOBU", "HIDEN_FLASH",
    "HIDEN_KIRIBARAI", "CUTIN", "CON_HERO_CHANGE", "PLAYER_NAME", "RIVAL_NAME", "SUPPORT_NAME",
    "POKEMON_NAME", "ITEM_NAME", "POCKET_NAME", "ITEM_WAZA_NAME", "WAZA_NAME", "NUMBER_NAME",
    "NUMBER_NAME_EX", "BIRTH_DAY_CHECK", "ANOON_SEE_NUM", "NICK_NAME", "POKETCH_NAME",
    "TR_TYPE_NAME", "MY_TR_TYPE_NAME", "POKEMON_NAME_EXTRA", "FIRST_POKEMON_NAME",
    "RIVAL_POKEMON_NAME", "SUPPORT_POKEMON_NAME", "FIRST_POKE_NO_GET", "NUTS_NAME", "SEIKAKU_NAME",
    "GOODS_NAME", "TRAP_NAME", "TAMA_NAME", "ZONE_NAME", "GENERATE_INFO_GET", "TRAINER_ID_GET",
    "TRAINER_BTL_SET", "TRAINER_MULTI_BTL_SET", "TRAINER_MSG_SET", "TRAINER_TALK_TYPE_GET",
    "REVENGE_TRAINER_TALK_TYPE_GET", "TRAINER_TYPE_GET", "TRAINER_BGM_SET", "TRAINER_LOSE",
    "TRAINER_LOSE_CHECK", "NORMAL_LOSE", "LOSE_CHECK", "SEACRET_POKE_RETRY_CHECK",
    "HAIFU_POKE_RETRY_CHECK", "2VS2_BATTLE_CHECK", "DEBUG_BTL_SET", "DEBUG_TRAINER_FLAG_SET",
    "DEBUG_TRAINER_FLAG_ON_JUMP", "DEBUG_TR_TALK_BTL", "SEL_PARENT_WIN", "SEL_CHILD_WIN",
    "DEBUG_PARENT_WIN", "DEBUG_CHILD_WIN", "DEBUG_SIO_ENCOUNT", "DEBUG_SIO_CONTEST",
    "CONSIO_TIMING_SEND", "CONSIO_TIMING_CHECK", "CON_SYSTEM_CREATE", "CON_SYSTEM_EXIT",
    "CON_JUDGE_NAME_GET", "CON_BREEDER_NAME_GET", "CON_NICK_NAME_GET", "CON_NUM_TAG_SET",
    "CON_SIO_PARAM_INIT_SET", "CONTEST_PROC", "CON_RANK_NAME_GET", "CON_TYPE_NAME_GET",
    "CON_VICTORY_BREEDER_NAME_GET", "CON_VICTORY_ITEM_NO_GET", "CON_VICTORY_NICK_NAME_GET",
    "CON_RANKING_CHECK", "CON_VICTORY_ENTRY_NO_GET", "CON_MY_ENTRY_NO_GET", "CON_OBJ_CODE_GET",
    "CON_POPULARITY_GET", "CON_DESK_MODE_GET", "CON_HAVE_RIBBON_CHECK", "CON_RIBBON_NAME_GET",
    "CON_ACCE_NO_GET", "CON_ENTRY_PARAM_GET", "CON_CAMERA_FLASH_SET", "CON_CAMERA_FLASH_CHECK",
    "CON_HBLANK_STOP", "CON_HBLANK_START", "CON_ENDING_SKIP_CHECK", "CON_RECORD_DISP",
    "CON_MSGPRINT_FLAG_SET", "CON_MSGPRINT_FLAG_RESET", "SP_LOCATION_SET", "ELEVATOR_FLOOR_GET",
    "ELEVATOR_FLOOR_WRITE", "SHINOU_ZUKAN_SEE_NUM", "SHINOU_ZUKAN_GET_NUM", "ZENKOKU_ZUKAN_SEE_NUM",
    "ZENKOKU_ZUKAN_GET_NUM", "CHK_ZENKOKU_ZUKAN", "GET_HYOUKA_MSGID", "WILD_BTL_SET",
    "SP_WILD_BTL_SET", "FIRST_BTL_SET", "CAPTURE_BTL_SET", "HONEY_TREE", "GET_HONEY_TREE_STATE",
    "HONEY_TREE_BTL_SET", "HONEY_TREE_AFTER_SET", "TSIGN_SET_PROC", "REPORT_SAVE_CHECK",
    "REPORT_SAVE", "REPORT_WIN_OPEN", "REPORT_WIN_CLOSE", "CLIP_TVSAVEDATA_CHECK",
    "CLIP_CONSAVEDATA_CHECK", "CLIP_TV_TITLE_SAVE", "GET_POKETCH", "GET_POKETCH_FLAG",
    "POKETCH_ADD", "POKETCH_CHECK", "COMM_SYNCHRONIZE", "COMM_RESET", "UNION_PARENT_CARD_TALK_NO",
    "UNION_GET_INFO_TALK_NO", "UNION_BEACON_CHANGE", "UNION_CONNECT_TALK_DENIED",
    "UNION_CONNECT_TALK_OK", "UNION_TRAINER_NAME_REGIST", "UNION_RETURN_SETUP",
    "UNION_CONNECT_CUT_RESTART", "UNION_GET_TALK_NUMBER", "UNION_ID_SET", "UNION_RESULT_GET",
    "UNION_OBJ_ALL_VANISH", "UNION_SCRIPT_RESULT_SET", "UNION_PARENT_START_COMMAND_SET",
    "UNION_CHILD_SELECT_COMMAND_SET", "UNION_CONNECT_START", "UNION_MAP_CHANGE",
    "UNION_VIEW_TR_SEL_SET", "UNION_VIEW_TR_TYPE_MSG_GET", "UNION_VIEW_TR_TYPE_NO_GET",
    "UNION_VIEW_MY_STATUS_SET", "SYS_FLAG_ZUKAN_GET", "SYS_FLAG_ZUKAN_SET", "SYS_FLAG_SHOES_GET",
    "SYS_FLAG_SHOES_SET", "SYS_FLAG_BADGE_GET", "SYS_FLAG_BADGE_SET", "SYS_FLAG_BADGE_COUNT",
    "SYS_FLAG_BAG_GET", "SYS_FLAG_BAG_SET", "SYS_FLAG_PAIR_GET", "SYS_FLAG_PAIR_SET",
    "SYS_FLAG_PAIR_RESET", "SYS_FLAG_ONE_STEP_GET", "SYS_FLAG_ONE_STEP_SET",
    "SYS_FLAG_ONE_STEP_RESET", "SYS_FLAG_GAME_CLEAR_GET", "SYS_FLAG_GAME_CLEAR_SET",
    "SYS_FLAG_KAIRIKI_SET", "SYS_FLAG_KAIRIKI_RESET", "SYS_FLAG_KAIRIKI_GET", "SYS_FLAG_FLASH_SET",
    "SYS_FLAG_FLASH_RESET", "SYS_FLAG_FLASH_GET", "SYS_FLAG_KIRIBARAI_SET",
    "SYS_FLAG_KIRIBARAI_RESET", "SYS_FLAG_KIRIBARAI_GET", "SHOP_CALL", "FIX_SHOP_CALL",
    "FIX_GOODS_CALL", "FIX_SEAL_CALL", "ACCE_SHOP_CALL", "PLAYER_REPORT_DRAW_SET",
    "PLAYER_REPORT_DRAW_DEL", "GAME_OVER_CALL", "SET_WARP_ID", "GET_MY_SEX", "PC_KAIFUKU",
    "UG_MAN_SHOP_NPC_RAND_PLACE", "COMM_DIRECT_END", "COMM_DIRECT_END_TIMING",
    "COMM_DIRECT_ENTER_BTL_ROOM", "COMM_PLAYER_SET_DIR", "SET_UP_DOOR_ANIME", "WAIT_3D_ANIME",
    "FREE_3D_ANIME", "SEQ_OPEN_DOOR", "SEQ_CLOSE_DOOR", "PMS_INPUT_SINGLE", "PMS_INPUT_DOUBLE",
    "PMS_BUF", "GET_SEED_STATUS", "GET_SEED_TYPE", "GET_SEED_COMPOST", "GET_SEED_GROUND",
    "GET_SEED_COUNT", "SET_SEED_COMPOST", "SET_SEED_NUTS", "SET_SEED_WATER", "TAKE_SEED",
    "SXY_POS_CHANGE", "OBJ_POS_CHANGE", "SXY_MV_CHANGE", "SXY_DIR_CHANGE", "SXY_EXIT_POS_CHANGE",
    "SXY_BG_POS_CHANGE", "OBJ_DIR_CHANGE", "RETURN_SCRIPT_WK_SET", "MSGEXPANDBUF",
    "GET_SODATE_NAME", "GET_SODATEYA_ZIISAN", "INIT_WATER_GYM", "PUSH_WATER_GYM_BUTTON",
    "INIT_GHOST_GYM", "MOVE_GHOST_GYM_LIFT", "INIT_STEEL_GYM", "INIT_COMBAT_GYM", "INIT_ELEC_GYM",
    "ROTATE_ELEC_GYM_GEAR", "GET_POKE_COUNT", "GET_POKE_COUNT2", "GET_POKE_COUNT3",
    "GET_POKE_COUNT4", "GET_TAMAGO_COUNT", "UG_SHOP_MENU_INIT", "UG_SHOP_TALK_START",
    "UG_SHOP_TALK_END", "UG_SHOP_ITEM_NAME", "UG_SHOP_TRAP_NAME", "DEL_SODATEYA_EGG",
    "GET_SODATEYA_EGG", "MSG_SODATEYA_AISHOU", "MSG_AZUKE_SET", "SET_SODATEYA_POKE",
    "SODATEYA_POKELIST", "HIKITORI_LIST", "SODATE_POKE_LEVEL_STR", "HIKITORI_RYOUKIN",
    "HIKITORI_POKE", "TAMAGO_DEMO", "TEMOTI_MONSNO", "MONS_OWN_CHK", "CHK_TEMOTI_POKERUS",
    "TEMOTI_POKE_SEX_GET", "SUB_MY_GOLD", "COMP_MY_GOLD", "OBJ_VISIBLE", "OBJ_INVISIBLE", "MAILBOX",
    "GET_MAILBOX_DATANUM", "RANKING_VIEW", "GET_TIME_ZONE", "GET_RND", "GET_RND_NEXT",
    "GET_NATSUKI", "ADD_NATSUKI", "SUB_NATSUKI", "HIKITORI_LIST_NAME_SET", "GET_SODATEYA_AISHOU",
    "SODATEYA_TAMAGO_CHK", "TEMOTI_POKE_CHK", "OOKISA_RECORD_CHK", "OOKISA_RECORD_SET",
    "OOKISA_TEMOTI_SET_BUF", "OOKISA_KIROKU_SET_BUF", "OOKISA_KURABE_INIT", "WAZALIST_SET_PROC",
    "WAZALIST_GET_RESULT", "WAZA_COUNT", "WAZA_DEL", "TEMOTI_WAZANO", "TEMOTI_WAZA_NAME",
    "FNOTE_START_SET", "FNOTE_DATA_MAKE", "FNOTE_DATA_SAVE", "IMC_ACCE_ADD_ITEM",
    "IMC_ACCE_ADD_ITEM_CHK", "IMC_ACCE_ITEM_CHK", "IMC_BG_ADD_ITEM", "IMC_BG_ITEM_CHK",
    "NUTMIXER_CALL", "NUTMIXER_PLAY_CHECK", "ZUKAN_CHK_SHINOU", "ZUKAN_CHK_NATIONAL",
    "ZUKAN_RECONGNIZE_SHINOU", "ZUKAN_RECONGNIZE_NATIONAL", "URAYAMA_ENCOUNT_SET",
    "URAYAMA_ENCOUNT_NO_CHK", "POKE_MAIL_CHK", "PAPERPLANE_SET", "POKE_MAIL_DEL", "KASEKI_COUNT",
    "ITEMLIST_SET_PROC", "ITEMLIST_GET_RESULT", "ITEMNO_TO_MONSNO", "KASEKI_ITEMNO",
    "POKE_LEVEL_CHK", "BTOWER_APP_CALL", "BTOWER_WORK_CLEAR", "BTOWER_WORK_INIT",
    "BTOWER_WORK_RELEASE", "BTOWER_TOOLS", "BTOWER_SEVEN_POKE_GET", "BTOWER_PRIZE_GET",
    "BTOWER_PRIZEMAN_SET", "BTOWER_SEND_BUF", "BTOWER_RECV_BUF", "BTOWER_GET_LEADER_ROOMID",
    "BTOWER_IS_LEADER_EXIST", "RECORD_INC", "RECORD_GET", "RECORD_ADD", "RECORD_SET",
    "RECORD_SETIFLARGE", "SAFARI_START", "SAFARI_END", "CALL_SAFARI_SCOPE", "CLIMAX_DEMO",
    "INIT_SAFARI_TRAIN", "MOVE_SAFARI_TRAIN", "CHECK_SAFARI_TRAIN", "PLAYER_HEGIHT_VALID",
    "GET_POKE_SEIKAKU", "CHK_POKE_SEIKAKU_ALL", "UNDERGROUND_TALK_COUNT",
    "NATURAL_PARK_WALK_COUNT_CLEAR", "NATURAL_PARK_WALK_COUNT_GET", "NATURAL_PARK_ACCESSORY_NO_GET",
    "GET_NEWS_POKE_NO", "NEWS_COUNT_SET", "NEWS_COUNT_CHK", "START_GENERATE", "ADD_MOVE_POKE",
    "OSHIE_WAZA_COUNT", "REMAIND_WAZA_COUNT", "OSHIE_WAZALIST_SET_PROC",
    "REMAIND_WAZALIST_SET_PROC", "OSHIE_WAZALIST_GET_RESULT", "REMAIND_WAZALIST_GET_RESULT",
    "NORMAL_WAZALIST_SET_PROC", "NORMAL_WAZALIST_GET_RESULT", "FLD_TRADE_ALLOC", "FLD_TRADE_MONSNO",
    "FLD_TRADE_CHG_MONSNO", "FLD_TRADE_EVENT", "FLD_TRADE_DEL", "ZUKAN_TEXT_VER_UP",
    "ZUKAN_SEX_VER_UP", "ZENKOKU_ZUKAN_FLAG", "CHK_RIBBON_COUNT", "CHK_RIBBON_COUNT_ALL",
    "CHK_RIBBON", "SET_RIBBON", "RIBBON_NAME", "CHK_PRMEXP", "CHK_WEEK", "TV_ENTRY_WATCH_HIDE_ITEM",
    "TV_ENTRY_WATCH_CHANGE_NAME", "REGULATION_LIST_CALL", "ASHIATO_CHK", "PC_RECOVER_ANM",
    "ELEVATOR_ANM", "CALL_SHIP_DEMO", "DEBUG_PRINT_WORK", "DEBUG_PRINT_FLAG",
    "DEBUG_PRINT_WORK_STATIONED", "DEBUG_PRINT_FLAG_STATIONED", "PM_VERSION_GET", "FRONT_POKEMON",
    "TEMOTI_POKE_TYPE", "AIKOTOBA_KABEGAMI_SET", "GET_UG_HATA_NUM", "SETUP_PASO_ANM",
    "START_PASO_ON_ANM", "START_PASO_OFF_ANM", "GET_KUJI_ATARI_NUM", "KUJI_ATARI_CHK",
    "KUJI_ATARI_INIT", "NICK_NAME_PC", "TV_INTERVIEWER_CHECK", "COUNT_MONSBOX_SPACE",
    "POKEPARK_CONTROL", "POKEPARK_DEPOSIT_COUNT", "POKEPARK_TRANS_MONS", "POKEPARK_GET_SCORE",
    "DENDOU_BALL_ANM", "INIT_FLD_LIFT", "MOVE_FLD_LIFT", "CHECK_FLD_LIFT", "SETUP_RAH_CYL",
    "START_RAH_CYL", "ADD_SCORE", "ACCE_NAME", "PARTY_MONSNO_CHECK", "PARTY_DEOKISISUFORM_CHANGE",
    "CHECKMINOMUCHICOMP", "POKETCH_HOOK_SET", "POKETCH_HOOK_RESET", "SLOT_MACHINE", "GET_NOW_HOUR",
    "FLDOBJ_SHAKE_ANM", "FLDOBJ_BLINK_ANM", "D20R0106_LEGEND_IS_UNSEAL", "DRESSING_IMC_ACCE_CHECK",
    "AGB_CARTRIDGE_VER_GET", "UNDERGROUND_TALK_COUNT_CLEAR", "HIDEMAP_STATE_CHG", "NAMEIN_MONUMENT",
    "MONUMENT_NAME", "IMC_BG_NAME", "COMP_COIN", "SLOT_RENTYAN_CHK", "ADD_COIN_CHK",
    "LEVEL_JIJII_NO", "POKE_LEVEL_GET", "IMC_ACCE_SUB_ITEM", "C08R0801SCOPECAMERASET",
    "LEVEL_JIJII_INIT", "NEW_NANKAI_WORD_SET", "REGULAR_CHECK", "NEW_NANKAI_WORD_COMPLETE_CHECK",
    "TEMOTI_POKE_CONTEST_STATUS_GET", "D17SYSTEM_MAP_SELECT", "UNDERGROUND_TOOL_GIVE_COUNT",
    "UNDERGROUND_KASEKI_DIG_COUNT", "UNDERGROUND_TRAP_HIT_COUNT", "POFIN_ADD", "POFIN_ADD_CHK",
    "IS_HAIHU_EVENT_ENABLE", "SODATEYA_POKELIST_SET_PROC", "SODATEYA_POKELIST_GET_RESULT",
    "GET_RANDOM_HIT", "UNDERGROUND_TALK_COUNT2", "HIDENEFF_START", "ZISHIN", "BTL_POINT_WIN_WRITE",
    "BTL_POINT_WIN_DEL", "BTL_POINT_WRITE", "GET_BTL_POINT", "BTL_POINT_ADD", "BTL_POINT_SUB",
    "COMP_BTL_POINT", "GET_BP_GIFT", "UG_BALLITEM_CHECK", "AUSU_ITEM_CHECK", "CHECK_MY_GSID",
    "FRIEND_DATA_NUM", "GET_COIN_GIFT", "SUB_WK_COIN", "COMP_WK_COIN", "AIKOTOBA_OKURIMONO_CHK",
    "WIFI_HUSIGINAOKURIMONO_OPEN_FLAG_SET", "UNION_GET_CARD_TALK_NO", "WIRELESS_ICON_EASY",
    "WIRELESS_ICON_EASY_END", "SAVE_FIELD_OBJ", "SEAL_NAME", "SET_ESCAPE_LOCATION",
    "FIELDOBJ_BITSET_FELLOWHIT", "DAME_TAMAGO_CHK_ALL", "UNION_BMPMENU_START",
    "UNION_BATTLE_START_CHECK", "GET_TRCARD_RANK", "FLD_SCOPE_MODE_ON", "FLD_SCOPE_MODE_OFF",
    "AC_UP", "AC_DOWN", "AC_LEFT", "AC_RIGHT", "AC_LOOP", "AC_DIR_U", "AC_DIR_R", "AC_DIR_D",
    "AC_DIR_L", "ACMD_END", "AC_DIR_VAL", "AC_WAIT", "SET_TURN_HERO_FRAME", "SET_TURN_OBJ_FRAME",
    "DEBUG_PRINT", "AC_MARK_GYOE", "FADE_WAIT", "HERO_MOVE_GRID_CENTER", "AC_WORLD_X", "AC_WORLD_Z",
    "AC_HERO_MATCH_X", "AC_HERO_MATCH_Z", "SET_POS_HERO_MATCH_X", "SET_POS_HERO_MATCH_Z",
    "AC_UP_CENTER", "AC_DOWN_CENTER", "AC_LEFT_CENTER", "AC_RIGHT_CENTER", "AC_DIR_UP_CENTER",
    "AC_DIR_DOWN_CENTER", "AC_DIR_LEFT_CENTER", "AC_DIR_RIGHT_CENTER", "AC_VANISH_ON",
    "AC_VANISH_OFF", "AC_DIR_PAUSE_ON", "AC_DIR_PAUSE_OFF", "AC_ANM_PAUSE_ON", "AC_ANM_PAUSE_OFF",
    "AC_PC_BOW", "AC_HIDE_PULLOFF", "AC_HERO_BANZAI", "AC_MARK_SAISEN", "AC_HERO_BANZAI_UKE",
    "ACMD_NOT", "GET_LANGUAGE", "GET_REL_POS_HERO", "CAMERA_TARGET_HERO", "CAMERA_TARGET_DUMMY",
    "DUMMY_ANIME", "DUMMY_ANIME_WAIT", "DUMMY_SET_POS", "DUMMY_SET_POS_HERO", "SET_CUSTUM_WIN_MSBT",
    "ADD_CUSTUM_WIN_LABEL", "OPEN_CUSTUM_WIN", "VISIBLE_OBJ_PROP", "INVISIBLE_OBJ_PROP",
    "EVENT_CAMERA_MODE", "SET_EVENT_CAMERA_PARAM", "EVENT_CAMERA_WAIT", "EVENT_CAMERA_FRAME",
    "HIT_DOOR_ANIME", "HIT_DOOR_ANIME_WAIT", "SET_DOOR_OBJ", "ROTOMU_FORM_CHECK",
    "TEMOTI_ROTOMU_FORM_WAZA_CHG", "EVENT_GET_TEMOTI_POKE_CHK_GET_POS", "TURN_HERO_TALK_OBJ",
    "FADE_SPEED", "FADE_BALL", "FADE_DEFAULT", "DOOR_FORCE_ANIME_END", "LDVAL_VERSION", "LDVAL_SEX",
    "TV_ENTRY_PARKINFO_INIT", "TV_ENTRY_PARKINFO_ITEM", "TV_ENTRY_PARKINFO_ACCE",
    "GROUP_EXIST_CHECK", "GROUP_ENTRY_CHECK", "GROUP_NAME", "GROUP_LEADER_NAME", "GROUP_NAME_IN",
    "GROUP_ENTRY", "GROUP_MAKE", "MYSTERY_POSTMAN_INIT", "MYSTERY_PRESENT_CHECK",
    "MYSTERY_GET_PRESENT_ID", "MYSTERY_RECEIVE_CHECK", "MYSTERY_RECEIVE_PRESENT",
    "MYSTERY_DISABLE_MSG", "MYSTERY_ENABLE_MSG", "MYSTERY_POSTMAN_END", "MYSTERY_POSTMAN_SAVE_END",
    "UNKNOWN_MSG", "TV_INTERVIEW_MSG", "TV_INTERVIEW_ENTRY", "TV_START", "TV_END",
    "TV_START_NUMBER", "TV_SET_ENDFLAG", "TV_MAKE_MSG", "TV_GET_DATA_TOTAL", "AC_INDEX_ANIME",
    "AC_INDEX_ANIME_WAIT", "DEBUG_RESET_WORK", "SET_SYS_FLAG", "RESET_SYS_FLAG",
    "CAMERA_SET_COS_ANGLE", "CAMERA_COS_ANGLE_WAIT", "HERO_MOVE_GRID_CENTER_FRONT",
    "WARP_ENABLE_SET", "DOOR_ENABLE_SET", "AC_ANIM_LOCK", "AC_ANIM_RELEASE", "SET_OFFSET",
    "OFFSET_WAIT", "NAMINORI_END", "TAKIKUDARI", "KABENOBORI_CHECK", "TALK_POKE_GET_TEMOTI_INDEX",
    "NATURAL_PARK_GET_MONOHIROI_ITEM_NO", "CON_OPEN_POKE_SELECT_MENU",
    "CON_OPEN_CAPSULE_SELECT_MENU", "CON_OPEN_BOUTIQUE_SELECT_MENU", "CON_WAIT_CONTEST_MENU",
    "CON_MY_ENTRY_NO_WORD_SET", "CON_BEST_PERFORMER_CHECK", "CON_CATEGORY_RIBBON_NAME_SET",
    "CON_HAVE_CONTEST_STAR_CHECK", "CON_CONTEST_STAR_NAME_SET", "CON_REWARD_NAME_SET",
    "OBJ_ANIME_FUREAI", "AC_MARK_EMO", "CON_CATEGORY_AND_RANK_SET", "CON_RANK_SET",
    "NATURAL_PARK_POKE_CREATE", "NATURAL_PARK_POKE_KAISAN", "NATURAL_PARK_POKE_SYUUGOU",
    "CON_CHECK_ENTRY_POKE", "NATURAL_PARK_POKE_SELECT_MENU", "AC_NECK_ROTATE",
    "CON_RESET_PARAMETER", "CON_SELECT_SINGLE_MODE", "CON_SELECT_MULTI_MODE", "DPR_SHOP_OPEN",
    "DPR_SHOP_OPEN_WAIT", "DOOR_TRANSITION_ZONE_SET", "IMAGE_CLIP_VIEW_CON_CHECK_PROC",
    "MOVE_COMBAT_GYM_WALL", "EV_ENTITY_PLAYER_MOVE_START", "EV_ENTITY_PLAYER_MOVE_END",
    "EV_ENTITY_PLAYER_MOVE_RESET", "CHECK_CAN_SEED_WATER", "SHOP_OPEN_FIXED", "SHOP_OPEN_SEAL",
    "SHOP_OPEN_BATTLE", "SHOP_OPEN_FLOWER", "SHOP_OPEN_OTENKI", "SHOP_OPEN_SELL", "AC_OFFSET",
    "GET_COSTUME", "SHOP_OPEN_BOUTIQUE_BUY", "SHOP_OPEN_BOUTIQUE_CHANGE",
    "CON_REWARD_SHOWMASTER_NAME_SET", "CON_TWINKLE_STAR_NAME_SET", "ANAWOHORU", "ANANUKENOHIMO",
    "TELEPORT", "AMAIKAORI", "CHECK_POFIN", "AMAIMITU", "WARP_START_ANIMATION",
    "WARP_END_ANIMATION", "SAFARI_SCOPE_SEQUENCE", "EVENT_CAMERA_INDEX", "EVENT_CAMERA_END_WAIT",
    "SHOP_OPEN_PALPARK", "BTOWER_APP_WAIT", "FLOOR_OPEN", "FLOOR_CLOSE", "MONEY_OPEN",
    "MONEY_CLOSE", "AZUKARIYA_EXIST_EGG", "AZUKARIYA_STORED_COUNT", "AZUKARIYA_SET_STORED_NAME",
    "AZUKARIYA_STORE", "AZUKARIYA_RESTORE", "AZUKARIYA_LOVE_LEVEL", "AZUKARIYA_GET_STORED_MONSNO",
    "AZUKARIYA_GET_EGG", "AZUKARIYA_DISCARD_EGG", "AZUKARIYA_SET_STORED_INFO_STR",
    "AZUKARIYA_GET_STORED_SEX", "AZUKARIYA_OLDMAN_INIT", "ADD_CUSTUM_WIN_LABEL_WORD_SET",
    "OPEN_CUSTUM_WIN_WORD_SET", "AC_INVISIBLE_ON", "AC_INVISIBLE_OFF", "BTL_ENCSEQ_LOAD",
    "USE_SPRAY", "BIRTH_MOUNTH_INPUT", "BIRTH_DAY_INPUT", "SPEAKERS_NAME", "GET_PLAYER_CAP",
    "CAMERA_SHAKE", "EVENT_ENTITY_CLIP_PLAY", "EVENT_ENTITY_CLIP_WAIT", "FACE_INDEX",
    "AC_FACE_INDEX", "TEMOTI_BALL_LOAD", "TEMOTI_BALL_LOAD_WAIT", "POKECEN_PUT_BALL",
    "POKECEN_CLEAR_BALL", "CHARA_LOOK_LOCK", "CHARA_LOOK_RELEASE", "TALK_OBJ_START_LOOK_NONE",
    "BOUKENNOOTO_TIPS_OPEN", "HIDENEFF_WAIT", "GET_URAYAMA_ENCOUNT_INDEX", "CUSTOM_BALL_NUM_ADD",
    "CHANGE_FASHION_REQ", "WARP_PANEL_START", "WARP_PANEL_END", "CON_OPEN_MATCHING_MENU",
    "OPEN_PASSWORD_SWKEYBOARD", "DENDOU_NUM_SET", "TEMOTI_BOX_POKE_CHK", "TEMOTI_BOX_MONSNO",
    "CALL_WAZA_OMOIDASHI_UI", "CALL_WAZA_WASURE_UI", "CALL_WAZA_OSHIE_UI", "CHECK_WAZA_OSHIE",
    "CHECK_WAZA_OSHIE_ALL", "TEMOTI_BOX_POKEMON_NAME", "BTWR_TOOL_CHK_ENTRY_POKE_NUM",
    "BTWR_TOOL_CLEAR_PLAY_DATA", "BTWR_TOOL_PUSH_NOW_LOCATION", "BTWR_TOOL_POP_NOW_LOCATION",
    "BTWR_TOOL_GET_WIFI_RANK", "BTWR_TOOL_SET_PLAY_MODE", "BTWR_TOOL_SET_NOW_WIN",
    "BTWR_TOOL_SET_RANK", "BTWR_SUB_CHK_ENTRY_POKE", "BTWR_SUB_GET_NOW_ROUND", "BTWR_SUB_INC_ROUND",
    "BTWR_SUB_IS_CLEAR", "BTWR_SUB_GET_RENSHOU_CNT", "BTWR_SUB_SET_SCORE",
    "BTWR_SUB_CHOICE_BTL_PARTNER", "BTWR_SUB_LOCAL_BTL_CALL", "BTWR_SUB_GET_PLAY_MODE",
    "BTWR_SUB_SET_LEADER_CLEAR_FLAG", "BTWR_SUB_GET_LEADER_CLEAR_FLAG", "BTWR_SUB_ADD_BATTLE_POINT",
    "BTWR_SUB_RENSHOU_RIBBON_SET", "BTWR_SUB_GET_MINE_OBJ", "BTWR_SUB_UPDATE_RANDOM",
    "BTWR_DEB_IS_WORK_NULL", "BOUKENNOOTO_TIPS_WAIT", "SAVE_RENDOU_ENABLE", "RETURN_LOOP",
    "INPUT_JUMP", "BTWR_SUB_BTL_TRAINER_SET", "BTWR_SUB_GET_RANK", "BTWR_SUB_RANK_DOWN_LOSE",
    "BTWR_SUB_RANK_DOWN_LOSE_RESET", "BTWR_SUB_ADD_LOSE", "SET_VISIBILITY",
    "LOAD_CAMERA_CONTROLLER", "LOAD_WAIT_CAMERA_CONTROLLER", "CAMERA_CONTROLLER_PLAY",
    "CAMERA_CONTROLLER_END", "TEMOTI_ROTOMU_FORM_CHG_CHECK", "TEMOTI_POKE_CHK_NUM",
    "TEMOTI_ROTOMU_FORM_GET", "POKELIST_FORM_CHANGE_SET_PROC", "POKELIST_FORM_CHANGE_GET_RESULT",
    "TUREARUKI_POKEMON_TALK", "TUREARUKI_POKEMON_INDEX", "TUREARUKI_TAKE_ITEM",
    "TUREARUKI_ITEM_TIMER_SET", "RELEASE_CAMERA_CONTROLLER", "FIND_BG_ENABLE", "FIND_BG_DISABLE",
    "CALL_EFFECT", "STOP_EFFECT", "RELEASE_EFFECT", "CASSET_VERSION_GET", "BOX_OPEN_NORMAL",
    "BOX_OPEN_SELECT", "CALL_EFFECT_OBJ", "SORAWOTOBU_END", "CON_OPEN_RESUME_MATCHING_MENU",
    "BOX_SEAL_UI_WAIT", "OBJ_POS_CHANGE_WORLD", "OPEN_SPECIAL_WIN_LABEL", "WAIT_SPECIAL_WIN_LABEL",
    "AK_LISNER_TRA", "AK_LISNER_POS", "AK_LISNER_ROT", "UNION_PROC", "CAMERA_CONTROLLER_WAIT",
    "SET_TV_INT", "SET_TV_PLAYER_NAME", "SET_TV_POKE_NICK_NAME", "TV_TPIC_ENABLE", "TV_TPIC_BRANCH",
    "TUREARUKI_POKE_CREATE", "TUREARUKI_POKE_DELETE", "AUTO_TANKEN_SET", "SET_MATCHING_GROUP",
    "AUTO_TANKEN_SET_WAIT", "USE_TANKENSET", "TALK_UNION_NPC", "CHECK_ONLINE_ACCOUNT",
    "WAIT_CHECK_ONLINE_ACCOUNT", "LOCALKOUKAN_APPLY", "ZUKAN_TOUROKU", "ZUKAN_TOUROKU_WAIT",
    "CHK_ZUKAN_TOUROKU", "AUTO_SAVE", "ENDING_DEMO", "AZUKARIYA_TAKE_OVER_POKE",
    "POKETORE_GET_CHARGE", "POKETORE_START", "BICYCLE_COLOR_SET", "BICYCLE_COLOR_GET",
    "PARK_ITEM_NAME", "LOAD_UMA_ANIME", "RELEASE_UMA_ANIME", "LOAD_UMA_ANIME_WAIT",
    "UMA_ANIME_PLAY", "UMA_ANIME_ATTACH", "UMA_PLAY_WAIT", "OBJ_ANIME_SPEED", "OBJ_SCALE",
    "BADGE_GET", "ADD_UG_ITEM", "TOBARI_4F_SHOP_OPEN", "DOF_FAR_DEPTH", "DISPLAY_MESSAGE",
    "DISPLAY_MESSAGE_CLOSE", "CUSTOM_BALL_TRAINER_PAGE", "CUSTOM_BALL_TRAINER_COPY_OPEN",
    "RECONGNIZE_TOKIKAKE", "RECONGNIZE_OPEN_WAIT", "UG_ITEM_NAME", "FUREAI_TALK_START",
    "FUREAI_TALK_END", "PLAY_FUREAI_VOICE_NAKAYOSHIRANK", "CREATE_HYOUTA", "CALL_SHIP_DEMO_SEA_MAP",
    "SETUP_SHIP", "PC_DENDOU_SET_PROC_OPEN_WAIT", "GET_POKETCH_APP_ID", "FADE_DUNGEON_OUT",
    "FADE_DUNGEON_IN", "FADE_BUILDING_OUT", "FADE_BUILDING_IN", "FADE_AREA_OUT", "FADE_AREA_IN",
    "CUSTOM_BALL_TRAINER_PAGE_WAIT", "C08R0801SCOPECAMERA_SEQUENCE", "EMBANKMENT",
    "ENTRY_UWASA_ZUKAN", "TALK_UG_NPC", "TRAINING_OPEN", "TRAINING_OPEN_WAIT",
    "CAMERA_CONTROLLER_IS_NULL", "UMA_IS_NULL", "GET_IS_HAVE_SECRETBASE", "GET_UG_NPC_TALK_COUNT",
    "RESET_UG_NPC_TALK_COUNT", "TEMOTI_POKE_CHK_GET_POS", "AC_STOP_WALK_ANIME", "SET_FORCE_BLINK",
    "CHECK_SECRET_BASE_EXPANTION", "TV_TOPIC_BRANCH_GET", "TV_TOPIC_INT_GET",
    "TV_TOPIC_STR_WORD_SET", "OOKISA_VALUE_SET_BUF", "SET_LIGHTINTENSITY",
    "SET_LIGHTINTENSITY_CHARCTER", "SET_LIGHTINTENSITY_POKE", "END_LIGHTINTENSITY",
    "END_LIGHTINTENSITY_CHARCTER", "END_LIGHTINTENSITY_POKE", "AC_ANIME_DURATION",
    "TV_RED_GYARADOS_ON", "TV_RED_GYARADOS_OFF", "PARTNER_NAME_SET", "TV_MONITOR_SET",
    "TV_MONITOR_RESET", "EFF_SCALE", "GET_ITEM_COUNT", "PLAY_EMO_SE", "AUTO_MSG", "AUTO_MSG_STOP",
    "GET_TAG_PATNER_ID", "ADD_WAZA", "NICKNAME_PLACEMENT", "UNIQUE_POKE_TEMP", "UNIQUE_POKE_FIX",
    "GET_FORM", "NICK_NAME_ALL", "DOF_CHANGE_TARGET_POS", "DOF_RESET_TARGET_POS",
    "ADD_MAROYAKA_POFFIN", "ALL_MONSNO", "ALL_MONS_OWN_CHK", "CON_CATEGORY_NAME", "CON_RANK_NAME",
    "POKE_TYPE_NAME", "POFFIN_NAME", "DRESS_NAME", "EVENT_ENTITY_VISIBLE", "UG_LEAVE_HOYUTA",
    "AZUKARIYA_STORE_UI", "SET_TELEPORT_ID", "POKE_LVUP_HOW_MANY", "USE_SPECIAL_ITEM", "GET_BP",
    "FOV_OFFSET_RATE", "OBJ_DIR_CHANGE_WORLD", "OBJ_POS_CHANGE_WORLD_FIND", "ZONE_NAME2",
    "TALK_COLISEUM_NPC", "USE_SUB_ATTRIBUTE", "ADD_CUSTUM_WIN_LABEL_TWO_WINDOW",
    "POKE_LEVEL_GET_ALL", "RESET_SAVEBGM", "BTWR_SUB_SELECT_POKE", "BTWR_SUB_GET_ENTRY_POKE",
    "SET_GLOBALWATERFIELD", "TV_INTERVIEW_STR_WORD_SET", "ZONE_NAME_LABEL", "AUTO_SAVE_BACK_UP_ON",
    "GET_STATUE_NUM", "BTWR_PLAYER_WIN_CHECK", "GET_GOLD", "AG_TRANSITION_HOYUTA", "ADD_POKEMON_UI",
    "GET_FUREAI_SELECT_POKE_TEMOTI_NO", "TV_TOPIC_STR_GENDER_WORD_SET",
    "EVENT_ENTITY_CLIP_ATTACH_PLAYER", "GET_POKE_COUNT5", "ADD_UNIQUE_POKEMON_UI",
    "BTWR_SUB_ADD_BATTLE_POINT_MANUAL", "POKE_TARENT_POW_MAX", "OPEN_BATTLE_WIN", "OJIGI",
    "DARKNESS_TEMPORARILY_OFF", "DARKNESS_TEMPORARILY_ON", "SAVE_PLAYREPORT",
    "SET_STOP_EYE_ENCOUNT", "RESET_STOP_EYE_ENCOUNT", "OPEN_CUSTUM_WIN_FIXED",
    "PLAY_REPORT_TRAINING", "GET_WATER_GYM_WATER_LEVEL", "REGET_WATER_GYM_WATER_LEVEL",
    "PLAY_REPORT_BTLTOWER_WIN", "GET_RECORD_TOWOR_WIN", "TEMOTI_PER_RND", "ADD_BTLTWR_CHALLENGE",
    "CHECK_GMS_ONLINE_ACCOUNT", "BTLTWR_CONTINUE_ROUND", "GMS_END", "CMD_NAME_END"]

/-- The commands: one placeholder below zero and the numbered ones from 1 on. -/
def command : Registry :=
  ⟨"EvCmdType", (-1, "_NONE_USE_NUMBER") :: numbered 1 commandNames⟩

/-! ### Commands that the compiler emits by itself -/

namespace Opcode

/-- Go on at a label. -/
def jump : Int := 24

/-- Go on at a label if a register compares to a value as told. -/
def compareJump : Int := 32

/-- Take the value that the case jumps after it test. -/
def switch : Int := 36

/-- Go on at a label if the switched value is the given one. -/
def caseJump : Int := 37

/-- Set a flag. -/
def flagSet : Int := 41

/-- Reset a flag. -/
def flagReset : Int := 43

/-- Go on at a label if a flag is set. -/
def flagJump : Int := 45

/-- Load a value into a register. -/
def loadValue : Int := 60

/-- Set a system flag. -/
def sysFlagSet : Int := 873

/-- Reset a system flag. -/
def sysFlagReset : Int := 874

end Opcode

end EvScript.Registry
